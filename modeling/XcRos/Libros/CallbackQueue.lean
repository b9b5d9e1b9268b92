import Mathlib.Data.List.Basic

/-! # The callback queue

`CallbackQueue` with any number of threads. A step is one section under `mutex_`, `id_info_mutex_`
or the exclusive lock of an id, with what the thread does by itself around it. A callback that runs
may call the queue again, so that a thread has a stack of calls. `κ` stands for the callbacks, `ρ`
for the places that a callback can be at while it runs.
-/

namespace XcRos.Libros

structure CallbackInfo (κ : Type) where
  callback : κ
  removalId : Nat
  markedForRemoval : Bool
deriving DecidableEq, Repr

/-- `callingRwMutex` lists the threads that hold the lock shared, once for each time. -/
structure IDInfo where
  id : Nat
  callingRwMutex : List Nat
deriving DecidableEq, Repr

inductive CallResult where
  | success
  | tryAgain
  | invalid
deriving DecidableEq, Repr

inductive CallOneResult where
  | called
  | tryAgain
  | empty
deriving DecidableEq, Repr

/-- The value of `calling_in_this_thread` outside of every callback. -/
def notCalling : Nat := 0xffffffffffffffff

/-- `cbIt` is the distance of `cb_it` from the beginning. -/
structure TLS (κ : Type) where
  callingInThisThread : Nat
  callbacks : List (CallbackInfo κ)
  cbIt : Nat

/-- Where `callOneCB` returns to. -/
inductive Caller where
  | callOne
  | callAvailable (called : Nat)

inductive RemovePhase where
  | found
  | unlocked
  | erased
  | marked

inductive Frame (κ ρ : Type) where
  | addCallback (info : CallbackInfo κ)
  | removeByID (removalId idInfo : Nat) (phase : RemovePhase)
  | callOneCB (caller : Caller)
  | lookedUp (caller : Caller) (info : CallbackInfo κ) (idInfo : Nat)
  | running (caller : Caller) (info : CallbackInfo κ) (idInfo lastCalling : Nat) (place : ρ)
  | returned (caller : Caller) (result : CallOneResult)

structure Thread (κ ρ : Type) where
  tls : TLS κ
  frames : List (Frame κ ρ)

/-- The members that the threads share; an `IDInfoPtr` is an index of `idInfos`. -/
structure CallbackQueue (κ : Type) where
  callbacks : List (CallbackInfo κ)
  calling : BitVec 64
  enabled : Bool
  idInfo : Nat → Option Nat
  idInfos : List IDInfo

/-- What a thread may ask of the queue. A call with a timeout is made when the wait is over. -/
inductive Call (κ : Type) where
  | addCallback (callback : κ) (removalId : Nat)
  | removeByID (removalId : Nat)
  | callOne (ready : κ → Bool)
  | callAvailable

variable {κ ρ : Type}

namespace TLS

def start : TLS κ := ⟨notCalling, [], 0⟩

def append (tls : TLS κ) (infos : List (CallbackInfo κ)) : TLS κ :=
  { tls with
    callbacks := tls.callbacks ++ infos
    cbIt := if tls.callbacks.isEmpty then 0 else tls.cbIt }

/-- `tls->cb_it = tls->callbacks.erase(tls->cb_it)` -/
def eraseIt (tls : TLS κ) : TLS κ := { tls with callbacks := tls.callbacks.eraseIdx tls.cbIt }

def markForRemoval (tls : TLS κ) (removalId : Nat) : TLS κ :=
  { tls with
    callbacks := tls.callbacks.map fun info =>
      if info.removalId = removalId then { info with markedForRemoval := true } else info }

def enterCB (tls : TLS κ) : TLS κ :=
  { tls with cbIt := if tls.callingInThisThread = notCalling then 0 else tls.cbIt }

end TLS

namespace CallbackQueue

def start : CallbackQueue κ where
  callbacks := []
  calling := 0
  enabled := true
  idInfo := fun _ => none
  idInfos := []

/-- The first part of `addCallback`. -/
def register (q : CallbackQueue κ) (removalId : Nat) : CallbackQueue κ :=
  match q.idInfo removalId with
  | some _ => q
  | none =>
    { q with
      idInfo := fun id => if id = removalId then some q.idInfos.length else q.idInfo id
      idInfos := q.idInfos ++ [⟨removalId, []⟩] }

/-- The second part of `addCallback`. -/
def push (q : CallbackQueue κ) (info : CallbackInfo κ) : CallbackQueue κ :=
  if q.enabled then { q with callbacks := q.callbacks ++ [info] } else q

/-- `id_info->id` -/
def idOf (q : CallbackQueue κ) (idInfo : Nat) : Option Nat := q.idInfos[idInfo]?.map IDInfo.id

def lockShared (q : CallbackQueue κ) (idInfo t : Nat) : CallbackQueue κ :=
  { q with idInfos := q.idInfos.modify idInfo fun i => { i with callingRwMutex := t :: i.callingRwMutex } }

def unlockShared (q : CallbackQueue κ) (idInfo t : Nat) : CallbackQueue κ :=
  { q with idInfos := q.idInfos.modify idInfo fun i => { i with callingRwMutex := i.callingRwMutex.erase t } }

/-- Nobody holds the lock shared, so that the exclusive lock can be had. -/
def lockable (q : CallbackQueue κ) (idInfo : Nat) : Bool :=
  q.idInfos[idInfo]?.all fun i => i.callingRwMutex.isEmpty

/-- What `removeByID` does under the exclusive lock. -/
def eraseCallbacks (q : CallbackQueue κ) (removalId : Nat) : CallbackQueue κ :=
  { q with callbacks := q.callbacks.filter fun info => info.removalId != removalId }

def eraseIDInfo (q : CallbackQueue κ) (removalId : Nat) : CallbackQueue κ :=
  { q with idInfo := fun id => if id = removalId then none else q.idInfo id }

/-- The loop of `callOne`: the first callback that is ready is taken out, and those in front of it
that are marked are dropped. -/
def takeReady (ready : κ → Bool) :
    List (CallbackInfo κ) → Option (CallbackInfo κ) × List (CallbackInfo κ)
  | [] => (none, [])
  | info :: rest =>
    if info.markedForRemoval then takeReady ready rest
    else if ready info.callback then (some info, rest)
    else ((takeReady ready rest).1, info :: (takeReady ready rest).2)

end CallbackQueue

namespace Thread

def start : Thread κ ρ := ⟨.start, []⟩

/-- A thread may call the queue when it is in no call of it, or in a callback. -/
def mayCall (th : Thread κ ρ) : Bool :=
  match th.frames with
  | [] => true
  | .running .. :: _ => true
  | _ => false

/-- The first step of a call; one that returns at once leaves no frame. -/
def call (q : CallbackQueue κ) (th : Thread κ ρ) : Call κ → CallbackQueue κ × Thread κ ρ
  | .addCallback callback removalId =>
    (q.register removalId, { th with frames := .addCallback ⟨callback, removalId, false⟩ :: th.frames })
  | .removeByID removalId =>
    match q.idInfo removalId with
    | some idInfo => (q, { th with frames := .removeByID removalId idInfo .found :: th.frames })
    | none => (q, th)
  | .callOne ready =>
    if q.enabled then
      let taken := CallbackQueue.takeReady ready q.callbacks
      match taken.1 with
      | some info =>
        ({ q with callbacks := taken.2, calling := q.calling + 1 },
          { tls := th.tls.append [info], frames := .callOneCB .callOne :: th.frames })
      | none => ({ q with callbacks := taken.2 }, th)
    else (q, th)
  | .callAvailable =>
    if q.enabled ∧ q.callbacks ≠ [] then
      let tls := th.tls.append q.callbacks
      ({ q with callbacks := [], calling := q.calling + BitVec.ofNat 64 tls.callbacks.length },
        { tls := tls, frames := .callOneCB (.callAvailable 0) :: th.frames })
    else (q, th)

/-- `callOneCB` up to the lookup of the id. -/
def lookUp (q : CallbackQueue κ) (tls : TLS κ) (caller : Caller) (rest : List (Frame κ ρ)) : Thread κ ρ :=
  match tls.callbacks[tls.cbIt]? with
  | none => { tls := tls, frames := .returned caller .empty :: rest }
  | some info =>
    match q.idInfo info.removalId with
    | some idInfo => { tls := tls, frames := .lookedUp caller info idInfo :: rest }
    | none => { tls := tls.eraseIt, frames := .returned caller .called :: rest }

/-- The next step of the call that the thread `t` is in, unless a callback is running. -/
def advance (enter : κ → ρ) (t : Nat) (q : CallbackQueue κ) (th : Thread κ ρ) :
    Option (CallbackQueue κ × Thread κ ρ) :=
  match th.frames with
  | [] => none
  | .running .. :: _ => none
  | .addCallback info :: rest => some (q.push info, { th with frames := rest })
  | .removeByID removalId idInfo .found :: rest =>
    -- The lock of a callback of this id that the thread is in has to be given up for a while.
    some (if q.idOf idInfo = some th.tls.callingInThisThread then q.unlockShared idInfo t else q,
      { th with frames := .removeByID removalId idInfo .unlocked :: rest })
  | .removeByID removalId idInfo .unlocked :: rest =>
    if q.lockable idInfo then
      some (q.eraseCallbacks removalId, { th with frames := .removeByID removalId idInfo .erased :: rest })
    else none
  | .removeByID removalId idInfo .erased :: rest =>
    some (if q.idOf idInfo = some th.tls.callingInThisThread then q.lockShared idInfo t else q,
      { tls := th.tls.markForRemoval removalId, frames := .removeByID removalId idInfo .marked :: rest })
  | .removeByID removalId _ .marked :: rest => some (q.eraseIDInfo removalId, { th with frames := rest })
  | .callOneCB caller :: rest => some (q, lookUp q th.tls.enterCB caller rest)
  | .lookedUp caller info idInfo :: rest =>
    if info.markedForRemoval then
      some (q, { tls := th.tls.eraseIt, frames := .returned caller .called :: rest })
    else
      some (q.lockShared idInfo t,
        { tls := { th.tls.eraseIt with callingInThisThread := (q.idOf idInfo).getD notCalling }
          frames := .running caller info idInfo th.tls.callingInThisThread (enter info.callback) :: rest })
  | .returned .callOne result :: rest =>
    some (if result = .empty then q else { q with calling := q.calling - 1 }, { th with frames := rest })
  | .returned (.callAvailable called) result :: rest =>
    let called := if result = .empty then called else called + 1
    if th.tls.callbacks.isEmpty then
      some ({ q with calling := q.calling - BitVec.ofNat 64 called }, { th with frames := rest })
    else some (q, { th with frames := .callOneCB (.callAvailable called) :: rest })

def finish (t : Nat) (result : CallResult) (q : CallbackQueue κ) (th : Thread κ ρ) :
    Option (CallbackQueue κ × Thread κ ρ) :=
  match th.frames with
  | .running caller info idInfo lastCalling _ :: rest =>
    let tls := { th.tls with callingInThisThread := lastCalling }
    -- A callback that is put back is stored even while the queue is disabled.
    if result = .tryAgain ∧ info.markedForRemoval = false then
      some ({ q with callbacks := q.callbacks ++ [info] }.unlockShared idInfo t,
        { tls := tls, frames := .returned caller .tryAgain :: rest })
    else some (q.unlockShared idInfo t, { tls := tls, frames := .returned caller .called :: rest })
  | _ => none

def lookedUp (th : Thread κ ρ) : List (CallbackInfo κ) :=
  th.frames.filterMap fun frame =>
    match frame with
    | .lookedUp _ info _ => some info
    | _ => none

end Thread

/-! ## Where a step takes its callbacks from -/

namespace CallbackQueue

theorem takeReady_mem {ready : κ → Bool} {infos : List (CallbackInfo κ)} {info : CallbackInfo κ} :
    (takeReady ready infos).1 = some info → info ∈ infos := by
  induction infos with
  | nil => nofun
  | cons first rest ih =>
    intro h
    rw [takeReady] at h
    split at h
    · exact List.mem_cons_of_mem first (ih h)
    · split at h
      · cases h
        exact List.mem_cons_self
      · exact List.mem_cons_of_mem first (ih h)

theorem takeReady_subset {ready : κ → Bool} {infos : List (CallbackInfo κ)} {info : CallbackInfo κ} :
    info ∈ (takeReady ready infos).2 → info ∈ infos := by
  induction infos with
  | nil => exact id
  | cons first rest ih =>
    intro h
    rw [takeReady] at h
    split at h
    · exact List.mem_cons_of_mem first (ih h)
    · split at h
      · exact List.mem_cons_of_mem first h
      · obtain rfl | hRest := List.mem_cons.mp h
        · exact List.mem_cons_self
        · exact List.mem_cons_of_mem first (ih hRest)

theorem push_mem {q : CallbackQueue κ} {info new : CallbackInfo κ} :
    info ∈ (q.push new).callbacks → info ∈ q.callbacks ∨ info = new := by
  rw [push]
  split
  · rintro h
    obtain hOld | hNew := List.mem_append.mp h
    · exact Or.inl hOld
    · exact Or.inr (List.mem_singleton.mp hNew)
  · exact Or.inl

@[simp] theorem push_idInfo (q : CallbackQueue κ) (info : CallbackInfo κ) : (q.push info).idInfo = q.idInfo := by
  rw [push]
  split <;> rfl

theorem register_callbacks (q : CallbackQueue κ) (removalId : Nat) :
    (q.register removalId).callbacks = q.callbacks := by
  rw [register]
  split <;> rfl

theorem register_idInfo {q : CallbackQueue κ} {removalId id : Nat}
    (h : id ≠ removalId ∨ q.idInfo removalId ≠ none) : (q.register removalId).idInfo id = q.idInfo id := by
  rw [register]
  split
  · rfl
  · rename_i hNone
    obtain hOther | hSome := h
    · exact if_neg hOther
    · exact absurd hNone hSome

end CallbackQueue

theorem TLS.unmarked_mem {tls : TLS κ} {removalId : Nat} {info : CallbackInfo κ}
    (h : info ∈ (tls.markForRemoval removalId).callbacks) (hUnmarked : info.markedForRemoval = false) :
    info ∈ tls.callbacks := by
  obtain ⟨old, hOld, rfl⟩ := List.mem_map.mp h
  split at hUnmarked
  · cases hUnmarked
  · rename_i hOther
    rwa [if_neg hOther]

namespace Thread

variable {q : CallbackQueue κ} {th : Thread κ ρ} {next : CallbackQueue κ × Thread κ ρ}

theorem call_stored (c : Call κ) {info : CallbackInfo κ}
    (h : info ∈ (th.call q c).1.callbacks ∨ info ∈ (th.call q c).2.tls.callbacks) :
    info ∈ q.callbacks ∨ info ∈ th.tls.callbacks := by
  cases c with
  | addCallback callback removalId =>
    simp only [call, CallbackQueue.register_callbacks] at h
    exact h
  | removeByID removalId =>
    simp only [call] at h
    split at h <;> exact h
  | callOne ready =>
    simp only [call] at h
    split at h
    · split at h
      · rename_i taken hTaken
        obtain hRest | hOwn := h
        · exact Or.inl (CallbackQueue.takeReady_subset hRest)
        · obtain hOld | hNew := List.mem_append.mp hOwn
          · exact Or.inr hOld
          · rw [List.mem_singleton.mp hNew]
            exact Or.inl (CallbackQueue.takeReady_mem hTaken)
      · exact h.imp CallbackQueue.takeReady_subset id
    · exact h
  | callAvailable =>
    simp only [call] at h
    split at h
    · obtain hNone | hOwn := h
      · exact absurd hNone List.not_mem_nil
      · exact (List.mem_append.mp hOwn).symm
    · exact h

theorem call_lookedUp (c : Call κ) : (th.call q c).2.lookedUp = th.lookedUp := by
  cases c with
  | addCallback callback removalId => rfl
  | removeByID removalId =>
    simp only [call]
    split <;> rfl
  | callOne ready =>
    simp only [call]
    split
    · split <;> rfl
    · rfl
  | callAvailable =>
    simp only [call]
    split <;> rfl

theorem call_idInfo (c : Call κ) (hKeeps : ∀ callback removalId, c ≠ .addCallback callback removalId) :
    (th.call q c).1.idInfo = q.idInfo := by
  cases c with
  | addCallback callback removalId => exact absurd rfl (hKeeps callback removalId)
  | removeByID removalId =>
    simp only [call]
    split <;> rfl
  | callOne ready =>
    simp only [call]
    split
    · split <;> rfl
    · rfl
  | callAvailable =>
    simp only [call]
    split <;> rfl

/-- What a thread does on its own: it stores no callback but the one that it is adding, looks up
only what it has popped, and registers no id. -/
structure Moved (q : CallbackQueue κ) (th : Thread κ ρ) (next : CallbackQueue κ × Thread κ ρ) : Prop where
  stored : ∀ info, info ∈ next.1.callbacks ∨ info ∈ next.2.tls.callbacks → info.markedForRemoval = false →
    (info ∈ q.callbacks ∨ info ∈ th.tls.callbacks) ∨ th.frames.head? = some (.addCallback info)
  lookedUp : ∀ info ∈ next.2.lookedUp,
    info ∈ th.lookedUp ∨ info ∈ th.tls.callbacks ∧ q.idInfo info.removalId ≠ none
  idInfo : ∀ id, q.idInfo id = none → next.1.idInfo id = none

theorem Moved.of_same (hCallbacks : next.1.callbacks = q.callbacks) (hTls : ∀ info ∈ next.2.tls.callbacks,
    info.markedForRemoval = false → info ∈ th.tls.callbacks) (hIdInfo : next.1.idInfo = q.idInfo)
    (hLookedUp : ∀ info ∈ next.2.lookedUp,
      info ∈ th.lookedUp ∨ info ∈ th.tls.callbacks ∧ q.idInfo info.removalId ≠ none) : Moved q th next where
  stored info h hUnmarked := by
    rw [hCallbacks] at h
    exact Or.inl (h.imp id fun hOwn => hTls info hOwn hUnmarked)
  lookedUp := hLookedUp
  idInfo id h := by rw [hIdInfo, h]

theorem lookUp_moved (q : CallbackQueue κ) (th : Thread κ ρ) (caller : Caller) {rest : List (Frame κ ρ)}
    (hFrames : th.frames = .callOneCB caller :: rest) : Moved q th (q, lookUp q th.tls.enterCB caller rest) := by
  have hRest : th.lookedUp = (⟨th.tls, rest⟩ : Thread κ ρ).lookedUp := by
    simp only [lookedUp, hFrames, List.filterMap_cons]
  rw [lookUp]
  split
  · exact .of_same rfl (fun _ h _ => h) rfl fun _ h => Or.inl (hRest ▸ h)
  · rename_i info hInfo
    split
    · rename_i idInfo hId
      refine .of_same rfl (fun _ h _ => h) rfl ?_
      intro found hFound
      obtain rfl | hOld := List.mem_cons.mp hFound
      · exact Or.inr ⟨List.mem_of_getElem? hInfo, by rw [hId]; exact Option.some_ne_none idInfo⟩
      · exact Or.inl (hRest ▸ hOld)
    · exact .of_same rfl (fun _ h _ => List.mem_of_mem_eraseIdx h) rfl fun _ h => Or.inl (hRest ▸ h)

theorem advance_moved {enter : κ → ρ} {t : Nat} (h : th.advance enter t q = some next) : Moved q th next := by
  have hBelow (frame : Frame κ ρ) (rest : List (Frame κ ρ)) (hFrames : th.frames = frame :: rest)
      (tls : TLS κ) (info : CallbackInfo κ) (hInfo : info ∈ (⟨tls, rest⟩ : Thread κ ρ).lookedUp) :
      info ∈ th.lookedUp := by
    rw [lookedUp, hFrames]
    exact (List.sublist_cons_self frame rest).filterMap _ |>.subset hInfo
  simp only [advance] at h
  split at h
  · cases h
  · cases h
  · rename_i info rest hFrames
    cases h
    refine ⟨?_, fun found hFound => Or.inl (hBelow _ _ hFrames _ _ hFound), ?_⟩
    · rintro found (hQueue | hOwn) _
      · obtain hOld | rfl := CallbackQueue.push_mem hQueue
        · exact Or.inl (Or.inl hOld)
        · exact Or.inr (by rw [hFrames]; rfl)
      · exact Or.inl (Or.inr hOwn)
    · intro id hId
      rw [CallbackQueue.push_idInfo, hId]
  · rename_i removalId idInfo rest hFrames
    cases h
    refine .of_same ?_ (fun _ h _ => h) ?_ (fun found hFound => Or.inl (hBelow _ _ hFrames th.tls _ hFound))
    · dsimp only
      split <;> rfl
    · dsimp only
      split <;> rfl
  · rename_i removalId idInfo rest hFrames
    split at h
    · cases h
      refine ⟨?_, fun found hFound => Or.inl (hBelow _ _ hFrames th.tls _ hFound), fun _ hId => hId⟩
      rintro found (hQueue | hOwn) _
      · exact Or.inl (Or.inl (List.mem_filter.mp hQueue).1)
      · exact Or.inl (Or.inr hOwn)
    · cases h
  · rename_i removalId idInfo rest hFrames
    cases h
    refine .of_same ?_ (fun _ h hUnmarked => TLS.unmarked_mem h hUnmarked) ?_
      (fun found hFound => Or.inl (hBelow _ _ hFrames th.tls _ hFound))
    · dsimp only
      split <;> rfl
    · dsimp only
      split <;> rfl
  · rename_i removalId idInfo rest hFrames
    cases h
    refine ⟨fun _ h _ => Or.inl h, fun found hFound => Or.inl (hBelow _ _ hFrames _ _ hFound), ?_⟩
    intro id hId
    simp only [CallbackQueue.eraseIDInfo, hId, ite_self]
  · rename_i caller rest hFrames
    cases h
    exact lookUp_moved q th caller hFrames
  · rename_i caller info idInfo rest hFrames
    split at h
    · cases h
      exact .of_same rfl (fun _ h _ => List.mem_of_mem_eraseIdx h) rfl
        fun found hFound => Or.inl (hBelow _ _ hFrames th.tls _ hFound)
    · cases h
      exact .of_same rfl (fun _ h _ => List.mem_of_mem_eraseIdx h) rfl
        fun found hFound => Or.inl (hBelow _ _ hFrames th.tls _ hFound)
  · rename_i result rest hFrames
    cases h
    refine .of_same ?_ (fun _ h _ => h) ?_ fun found hFound => Or.inl (hBelow _ _ hFrames _ _ hFound)
    · dsimp only
      split <;> rfl
    · dsimp only
      split <;> rfl
  · rename_i called result rest hFrames
    split at h
    · cases h
      exact .of_same rfl (fun _ h _ => h) rfl fun found hFound => Or.inl (hBelow _ _ hFrames _ _ hFound)
    · cases h
      exact .of_same rfl (fun _ h _ => h) rfl fun found hFound => Or.inl (hBelow _ _ hFrames th.tls _ hFound)

theorem finish_moved {t : Nat} {result : CallResult} (h : th.finish t result q = some next) :
    ∃ caller info idInfo lastCalling place rest,
      th.frames = .running caller info idInfo lastCalling place :: rest ∧
      (∀ found, found ∈ next.1.callbacks ∨ found ∈ next.2.tls.callbacks →
        (found ∈ q.callbacks ∨ found ∈ th.tls.callbacks) ∨ result = .tryAgain ∧ found = info) ∧
      next.2.lookedUp = th.lookedUp ∧ next.1.idInfo = q.idInfo := by
  simp only [finish] at h
  split at h
  · rename_i caller info idInfo lastCalling place rest hFrames
    refine ⟨caller, info, idInfo, lastCalling, place, rest, hFrames, ?_⟩
    split at h
    · rename_i hAgain
      cases h
      refine ⟨?_, by simp only [lookedUp, hFrames, List.filterMap_cons], rfl⟩
      rintro found (hQueue | hOwn)
      · obtain hOld | hNew := List.mem_append.mp hQueue
        · exact Or.inl (Or.inl hOld)
        · exact Or.inr ⟨hAgain.1, List.mem_singleton.mp hNew⟩
      · exact Or.inl (Or.inr hOwn)
    · cases h
      exact ⟨fun _ h => Or.inl h, by simp only [lookedUp, hFrames, List.filterMap_cons], rfl⟩
  · cases h

end Thread

end XcRos.Libros
