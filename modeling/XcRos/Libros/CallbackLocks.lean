import XcRos.Libros.CallbackThread

/-! # The locks of a thread that removes callbacks

A thread holds the lock of an `IDInfo` shared once for each callback that it runs under it. `removeByID` gives up one
of them if `calling_in_this_thread` is the id, takes the lock exclusively, and takes it shared again.
-/

namespace XcRos.Libros

open XcRos.Foundation

variable {κ ρ : Type}

namespace CallbackQueue

/-- How often the thread `t` holds the lock shared. -/
def held (q : CallbackQueue κ) (idInfo t : Nat) : Nat :=
  (q.idInfos[idInfo]?.map fun info => info.callingRwMutex.count t).getD 0

end CallbackQueue

namespace Frame

def runsUnder (idInfo : Nat) : Frame κ ρ → Bool
  | .running _ _ here _ _ => here == idInfo
  | _ => false

/-- The `IDInfo` that the frame has a pointer to. -/
def idInfo? : Frame κ ρ → Option Nat
  | .running _ _ idInfo _ _ => some idInfo
  | .lookedUp _ _ idInfo => some idInfo
  | .removeByID _ idInfo _ => some idInfo
  | _ => none

/-- The `IDInfo` whose lock `removeByID` has taken exclusively, or is about to. -/
def excludes : Frame κ ρ → Option Nat
  | .removeByID _ idInfo .unlocked => some idInfo
  | .removeByID _ idInfo .erased => some idInfo
  | _ => none

end Frame

namespace CallbackThread

/-- The callbacks that the thread is in and that run under the `IDInfo`. -/
def runs (frames : List (Frame κ ρ)) (idInfo : Nat) : Nat := frames.countP (Frame.runsUnder idInfo)

def excluded (frames : List (Frame κ ρ)) : Option Nat := frames.head?.bind Frame.excludes

/-! ## The property, and when it holds -/

structure LocksKept (s : State κ) : Prop where
  released {removalId idInfo : Nat} {rest : List (Frame κ Unit)}
    (hFrames : s.thread.frames = .removeByID removalId idInfo .found :: rest)
    (hReleased : s.queue.idOf idInfo = some s.thread.tls.callingInThisThread) : 0 < s.queue.held idInfo 0
  requested {removalId idInfo : Nat} {rest : List (Frame κ Unit)}
    (hFrames : s.thread.frames = .removeByID removalId idInfo .unlocked :: rest) : s.queue.lockable idInfo = true
  kept {idInfo : Nat} (hExcluded : excluded s.thread.frames ≠ some idInfo) :
    s.queue.held idInfo 0 = runs s.thread.frames idInfo

/-- Of the callbacks that the thread is in, exactly the innermost one runs under the present `IDInfo` of the id if
`calling_in_this_thread` is the id, and none does otherwise. -/
def innermostOnly (s : State κ) : Label κ → Bool
  | .call (.removeByID removalId) =>
    (s.queue.idInfo removalId).all fun idInfo =>
      runs s.thread.frames idInfo == if s.queue.idOf idInfo = some s.thread.tls.callingInThisThread then 1 else 0
  | _ => true

abbrev InnermostOnly (s : State κ) (a : Label κ) : Prop := innermostOnly s a = true

/-! ## The invariant -/

/-- How often the thread holds the lock of the `IDInfo` shared. -/
def owed (frames : List (Frame κ ρ)) (idInfo : Nat) : Nat :=
  if excluded frames = some idInfo then 0 else runs frames idInfo

structure Locked (q : CallbackQueue κ) (tls : TLS κ) (frames : List (Frame κ ρ)) : Prop where
  below : ∀ frame ∈ frames.tail, frame.isRunning = true
  registered : ∀ id idInfo, q.idInfo id = some idInfo → idInfo < q.idInfos.length
  found : ∀ frame ∈ frames, ∀ idInfo, frame.idInfo? = some idInfo → idInfo < q.idInfos.length
  locks : ∀ idInfo info, q.idInfos[idInfo]? = some info →
    info.callingRwMutex = List.replicate (owed frames idInfo) 0
  fits : ∀ removalId idInfo phase rest, frames = .removeByID removalId idInfo phase :: rest →
    runs rest idInfo = if q.idOf idInfo = some tls.callingInThisThread then 1 else 0

theorem runs_cons (frame : Frame κ ρ) (frames : List (Frame κ ρ)) (idInfo : Nat) :
    runs (frame :: frames) idInfo = runs frames idInfo + if frame.runsUnder idInfo then 1 else 0 :=
  List.countP_cons

theorem excluded_of_running {frames : List (Frame κ ρ)} (h : ∀ frame ∈ frames, frame.isRunning = true) :
    excluded frames = none := by
  cases frames with
  | nil => rfl
  | cons frame rest =>
    have hFrame := h frame List.mem_cons_self
    cases frame with
    | running => rfl
    | addCallback | removeByID | callOneCB | lookedUp | returned => cases hFrame

theorem lockShared_idInfos (q : CallbackQueue κ) (idInfo t i : Nat) :
    (q.lockShared idInfo t).idInfos[i]? = q.idInfos[i]?.map fun info =>
      if idInfo = i then { info with callingRwMutex := t :: info.callingRwMutex } else info :=
  List.getElem?_modify ..

theorem unlockShared_idInfos (q : CallbackQueue κ) (idInfo t i : Nat) :
    (q.unlockShared idInfo t).idInfos[i]? = q.idInfos[i]?.map fun info =>
      if idInfo = i then { info with callingRwMutex := info.callingRwMutex.erase t } else info :=
  List.getElem?_modify ..

@[simp] theorem lockShared_idOf (q : CallbackQueue κ) (idInfo t i : Nat) :
    (q.lockShared idInfo t).idOf i = q.idOf i := by
  rw [CallbackQueue.idOf, lockShared_idInfos, CallbackQueue.idOf, Option.map_map]
  congr 1
  funext info
  simp only [Function.comp_apply]
  split <;> rfl

@[simp] theorem unlockShared_idOf (q : CallbackQueue κ) (idInfo t i : Nat) :
    (q.unlockShared idInfo t).idOf i = q.idOf i := by
  rw [CallbackQueue.idOf, unlockShared_idInfos, CallbackQueue.idOf, Option.map_map]
  congr 1
  funext info
  simp only [Function.comp_apply]
  split <;> rfl

namespace Locked

variable {q q' : CallbackQueue κ} {tls tls' : TLS κ} {frame frame' : Frame κ ρ} {rest frames frames' : List (Frame κ ρ)}

theorem runs_eq_zero (h : Locked q tls frames) {idInfo : Nat} (hIdInfo : q.idInfos.length ≤ idInfo) :
    runs frames idInfo = 0 := by
  apply List.countP_eq_zero.mpr
  intro frame hFrame hRuns
  cases frame with
  | running caller info here lastCalling place =>
    have hHere : here = idInfo := beq_iff_eq.mp hRuns
    exact absurd (h.found _ hFrame here rfl) (by omega)
  | addCallback | removeByID | callOneCB | lookedUp | returned => cases hRuns

/-- The thread goes on to other frames, below whose first one callbacks run. -/
structure Moves (q : CallbackQueue κ) (tls' : TLS κ) (frames frames' : List (Frame κ ρ)) : Prop where
  below : ∀ f ∈ frames'.tail, f.isRunning = true
  found : ∀ f ∈ frames', ∀ idInfo, f.idInfo? = some idInfo →
    (∃ g ∈ frames, g.idInfo? = some idInfo) ∨ ∃ id, q.idInfo id = some idInfo
  fits : ∀ removalId idInfo phase rest, frames' = .removeByID removalId idInfo phase :: rest →
    runs rest idInfo = if q.idOf idInfo = some tls'.callingInThisThread then 1 else 0

theorem moved (h : Locked q tls frames) (hMoves : Moves q tls' frames frames')
    (hLength : q'.idInfos.length = q.idInfos.length) (hIdOf : ∀ idInfo, q'.idOf idInfo = q.idOf idInfo)
    (hRegistered : ∀ id idInfo, q'.idInfo id = some idInfo → q.idInfo id = some idInfo)
    (hLocks : ∀ idInfo info, q'.idInfos[idInfo]? = some info →
      info.callingRwMutex = List.replicate (owed frames' idInfo) 0) : Locked q' tls' frames' where
  below := hMoves.below
  registered id idInfo hId := hLength ▸ h.registered id idInfo (hRegistered id idInfo hId)
  found f hf idInfo hIdInfo := by
    rw [hLength]
    obtain ⟨g, hg, hSame⟩ | ⟨id, hId⟩ := hMoves.found f hf idInfo hIdInfo
    · exact h.found g hg idInfo hSame
    · exact h.registered id idInfo hId
  locks := hLocks
  fits removalId idInfo phase rest hFrames := by
    rw [hIdOf]
    exact hMoves.fits removalId idInfo phase rest hFrames

theorem carry (h : Locked q tls frames) (hMoves : Moves q tls' frames frames') (hInfos : q'.idInfos = q.idInfos)
    (hRegistered : ∀ id idInfo, q'.idInfo id = some idInfo → q.idInfo id = some idInfo)
    (hOwed : ∀ idInfo, owed frames' idInfo = owed frames idInfo) : Locked q' tls' frames' := by
  refine h.moved hMoves (congrArg List.length hInfos) (fun idInfo => ?_) hRegistered fun idInfo info hInfo => ?_
  · rw [CallbackQueue.idOf, CallbackQueue.idOf, hInfos]
  · rw [hInfos] at hInfo
    rw [hOwed, h.locks idInfo info hInfo]

theorem lock {here : Nat} (h : Locked q tls frames) (hMoves : Moves q tls' frames frames')
    (hOwed : owed frames' here = owed frames here + 1)
    (hOthers : ∀ idInfo, here ≠ idInfo → owed frames' idInfo = owed frames idInfo) :
    Locked (q.lockShared here 0) tls' frames' := by
  refine h.moved hMoves (List.length_modify ..) (lockShared_idOf q here 0) (fun _ _ hId => hId) ?_
  intro idInfo info hInfo
  rw [lockShared_idInfos] at hInfo
  obtain ⟨old, hOld, rfl⟩ := Option.map_eq_some_iff.mp hInfo
  have hLocks := h.locks idInfo old hOld
  split
  · rename_i hHere
    subst hHere
    rw [hOwed, hLocks]
    rfl
  · rw [hOthers idInfo ‹_›, hLocks]

theorem unlock {here : Nat} (h : Locked q tls frames) (hMoves : Moves q tls' frames frames')
    (hOwed : owed frames here = owed frames' here + 1)
    (hOthers : ∀ idInfo, here ≠ idInfo → owed frames' idInfo = owed frames idInfo) :
    Locked (q.unlockShared here 0) tls' frames' := by
  refine h.moved hMoves (List.length_modify ..) (unlockShared_idOf q here 0) (fun _ _ hId => hId) ?_
  intro idInfo info hInfo
  rw [unlockShared_idInfos] at hInfo
  obtain ⟨old, hOld, rfl⟩ := Option.map_eq_some_iff.mp hInfo
  have hLocks := h.locks idInfo old hOld
  split
  · rename_i hHere
    subst hHere
    rw [hLocks, hOwed, List.replicate_succ]
    exact List.erase_cons_head 0 _
  · rw [hOthers idInfo ‹_›, hLocks]

/-! ## Which frames follow each other -/

theorem Moves.push (hRunning : ∀ f ∈ frames, f.isRunning = true)
    (hFound : ∀ idInfo, frame.idInfo? = some idInfo → ∃ id, q.idInfo id = some idInfo)
    (hFits : ∀ removalId idInfo phase, frame = .removeByID removalId idInfo phase →
      runs frames idInfo = if q.idOf idInfo = some tls'.callingInThisThread then 1 else 0) :
    Moves q tls' frames (frame :: frames) where
  below := hRunning
  found f hf idInfo hIdInfo := by
    obtain rfl | hOld := List.mem_cons.mp hf
    · exact .inr (hFound idInfo hIdInfo)
    · exact .inl ⟨f, hOld, hIdInfo⟩
  fits removalId idInfo phase rest hFrames := by
    obtain ⟨rfl, rfl⟩ := List.cons.inj hFrames
    exact hFits removalId idInfo phase rfl

theorem Moves.pop (hRunning : ∀ f ∈ rest, f.isRunning = true) : Moves q tls' (frame :: rest) rest where
  below f hf := hRunning f (List.mem_of_mem_tail hf)
  found f hf idInfo hIdInfo := .inl ⟨f, List.mem_cons_of_mem frame hf, hIdInfo⟩
  fits removalId idInfo phase below hFrames := by
    have hFirst := hRunning (.removeByID removalId idInfo phase) (hFrames ▸ List.mem_cons_self)
    cases hFirst

theorem Moves.replace (hRunning : ∀ f ∈ rest, f.isRunning = true)
    (hFound : ∀ idInfo, frame'.idInfo? = some idInfo →
      frame.idInfo? = some idInfo ∨ ∃ id, q.idInfo id = some idInfo)
    (hFits : ∀ removalId idInfo phase, frame' = .removeByID removalId idInfo phase →
      runs rest idInfo = if q.idOf idInfo = some tls'.callingInThisThread then 1 else 0) :
    Moves q tls' (frame :: rest) (frame' :: rest) where
  below := hRunning
  found f hf idInfo hIdInfo := by
    obtain rfl | hOld := List.mem_cons.mp hf
    · obtain hSame | hId := hFound idInfo hIdInfo
      · exact .inl ⟨frame, List.mem_cons_self, hSame⟩
      · exact .inr hId
    · exact .inl ⟨f, List.mem_cons_of_mem frame hOld, hIdInfo⟩
  fits removalId idInfo phase rest' hFrames := by
    obtain ⟨rfl, rfl⟩ := List.cons.inj hFrames
    exact hFits removalId idInfo phase rfl

end Locked

theorem owed_cons {frame : Frame κ ρ} (hExcludes : frame.excludes = none) (frames : List (Frame κ ρ)) (idInfo : Nat) :
    owed (frame :: frames) idInfo = runs frames idInfo + if frame.runsUnder idInfo then 1 else 0 := by
  have hNone : excluded (frame :: frames) = none := hExcludes
  rw [owed, hNone, if_neg (by simp), runs_cons]

theorem owed_of_not_running {frame : Frame κ ρ} (hRuns : frame.isRunning = false) (hExcludes : frame.excludes = none)
    (frames : List (Frame κ ρ)) (idInfo : Nat) : owed (frame :: frames) idInfo = runs frames idInfo := by
  rw [owed_cons hExcludes]
  cases frame with
  | running => cases hRuns
  | addCallback | removeByID | callOneCB | lookedUp | returned => rfl

theorem owed_of_running {frames : List (Frame κ ρ)} (h : ∀ frame ∈ frames, frame.isRunning = true) (idInfo : Nat) :
    owed frames idInfo = runs frames idInfo := by
  rw [owed, excluded_of_running h, if_neg (by simp)]


/-! ## The steps -/

variable {q : CallbackQueue κ} {th : Thread κ ρ} {next : CallbackQueue κ × Thread κ ρ}

theorem locked_register (h : Locked q th.tls th.frames) (hRunning : ∀ f ∈ th.frames, f.isRunning = true)
    (removalId : Nat) : Locked (q.register removalId) th.tls th.frames := by
  rw [CallbackQueue.register]
  split
  · exact h
  · refine ⟨h.below, ?_, ?_, ?_, ?_⟩
    · intro id idInfo hId
      rw [List.length_append]
      dsimp only at hId
      split at hId
      · cases hId
        exact Nat.lt_succ_self _
      · exact Nat.lt_succ_of_lt (h.registered id idInfo hId)
    · intro f hf idInfo hIdInfo
      rw [List.length_append]
      exact Nat.lt_succ_of_lt (h.found f hf idInfo hIdInfo)
    · intro idInfo info hInfo
      rcases Nat.lt_or_ge idInfo q.idInfos.length with hOld | hNew
      · rw [List.getElem?_append_left hOld] at hInfo
        exact h.locks idInfo info hInfo
      · rw [List.getElem?_append_right hNew] at hInfo
        obtain rfl := List.mem_singleton.mp (List.mem_of_getElem? hInfo)
        rw [owed_of_running hRunning, h.runs_eq_zero hNew]
        rfl
    · intro removalId idInfo phase rest hFrames
      have hFirst := hRunning (.removeByID removalId idInfo phase) (hFrames ▸ List.mem_cons_self)
      cases hFirst

theorem locked_push {q' : CallbackQueue κ} {tls' : TLS κ} {frame : Frame κ ρ} (h : Locked q th.tls th.frames)
    (hRunning : ∀ f ∈ th.frames, f.isRunning = true) (hFrame : frame.idInfo? = none) (hInfos : q'.idInfos = q.idInfos)
    (hIdInfo : q'.idInfo = q.idInfo) : Locked q' tls' (frame :: th.frames) := by
  refine h.carry (.push hRunning ?_ ?_) hInfos (fun _ _ hId => hIdInfo ▸ hId) fun idInfo => ?_
  · intro idInfo hSome
    rw [hFrame] at hSome
    cases hSome
  · rintro removalId idInfo phase rfl
    cases hFrame
  · rw [owed_of_running hRunning, owed_of_not_running]
    · cases frame with
      | addCallback | callOneCB | returned => rfl
      | removeByID | lookedUp | running => cases hFrame
    · cases frame with
      | addCallback | callOneCB | returned => rfl
      | removeByID | lookedUp | running => cases hFrame

theorem locked_tls {q' : CallbackQueue κ} {tls' : TLS κ} (h : Locked q th.tls th.frames)
    (hCalling : tls'.callingInThisThread = th.tls.callingInThisThread) (hInfos : q'.idInfos = q.idInfos)
    (hIdInfo : q'.idInfo = q.idInfo) : Locked q' tls' th.frames := by
  refine h.carry ⟨h.below, fun f hf _ hSome => .inl ⟨f, hf, hSome⟩, ?_⟩ hInfos (fun _ _ hId => hIdInfo ▸ hId) fun _ => rfl
  rw [hCalling]
  exact h.fits

theorem locked_call {c : Call κ} (h : Locked q th.tls th.frames) (hMay : th.mayCall = true)
    (hFits : ∀ removalId idInfo, c = .removeByID removalId → q.idInfo removalId = some idInfo →
      runs th.frames idInfo = if q.idOf idInfo = some th.tls.callingInThisThread then 1 else 0) :
    Locked (th.call q c).1 (th.call q c).2.tls (th.call q c).2.frames := by
  have hRunning := isRunning_of_mayCall hMay h.below
  cases c with
  | addCallback callback removalId =>
    exact @locked_push _ _ (q.register removalId) ⟨th.tls, th.frames⟩ _ _ _ (locked_register h hRunning removalId) hRunning
      rfl rfl rfl
  | removeByID removalId =>
    simp only [Thread.call]
    split
    · rename_i idInfo hId
      refine h.carry (.push hRunning ?_ ?_) rfl (fun _ _ hId => hId) fun i => ?_
      · intro i hSome
        cases hSome
        exact ⟨removalId, hId⟩
      · intro _ i phase hFrame
        cases hFrame
        exact hFits removalId idInfo rfl hId
      · rw [owed_of_running hRunning, owed_cons rfl]
        rfl
    · exact h
  | callOne ready =>
    simp only [Thread.call]
    split
    · split
      · exact locked_push h hRunning rfl rfl rfl
      · exact locked_tls h rfl rfl rfl
    · exact h
  | callAvailable =>
    simp only [Thread.call]
    split
    · exact locked_push h hRunning rfl rfl rfl
    · exact h

theorem locked_pop {q' : CallbackQueue κ} {frame : Frame κ ρ} {rest : List (Frame κ ρ)}
    (h : Locked q th.tls (frame :: rest)) (hRuns : frame.isRunning = false) (hExcludes : frame.excludes = none)
    (hInfos : q'.idInfos = q.idInfos)
    (hIdInfo : ∀ id idInfo, q'.idInfo id = some idInfo → q.idInfo id = some idInfo) : Locked q' th.tls rest := by
  refine h.carry (.pop h.below) hInfos hIdInfo fun idInfo => ?_
  have hRunning : ∀ f ∈ rest, f.isRunning = true := h.below
  rw [owed_of_running hRunning, owed_of_not_running hRuns hExcludes]

theorem locked_replace {tls' : TLS κ} {frame frame' : Frame κ ρ} {rest : List (Frame κ ρ)}
    (h : Locked q th.tls (frame :: rest)) (hRuns : frame.isRunning = false) (hExcludes : frame.excludes = none)
    (hIdInfo : frame'.idInfo? = none) : Locked q tls' (frame' :: rest) := by
  refine h.carry (.replace h.below ?_ ?_) rfl (fun _ _ hId => hId) fun idInfo => ?_
  · intro idInfo hSome
    rw [hIdInfo] at hSome
    cases hSome
  · rintro removalId idInfo phase rfl
    cases hIdInfo
  · rw [owed_of_not_running hRuns hExcludes]
    cases frame' with
    | addCallback | callOneCB | returned => exact owed_of_not_running rfl rfl rest idInfo
    | removeByID | lookedUp | running => cases hIdInfo

theorem locked_lookUp {caller : Caller} {rest : List (Frame κ ρ)} (tls' : TLS κ)
    (h : Locked q th.tls (.callOneCB caller :: rest)) :
    Locked q (Thread.lookUp q tls' caller rest).tls (Thread.lookUp q tls' caller rest).frames := by
  rw [Thread.lookUp]
  split
  · exact locked_replace h rfl rfl rfl
  · rename_i info hInfo
    split
    · rename_i idInfo hId
      refine h.carry (.replace h.below ?_ ?_) rfl (fun _ _ hId => hId) fun i => ?_
      · intro i hSome
        cases hSome
        exact .inr ⟨info.removalId, hId⟩
      · intro _ _ _ hFrame
        cases hFrame
      · rw [owed_of_not_running rfl rfl, owed_of_not_running rfl rfl]
    · exact locked_replace h rfl rfl rfl

theorem owed_unlocked (removalId idInfo i : Nat) (rest : List (Frame κ ρ)) :
    owed (.removeByID removalId idInfo .unlocked :: rest) i = if idInfo = i then 0 else runs rest i := by
  simp only [owed, excluded, List.head?_cons, Option.bind_some, Frame.excludes, Option.some.injEq, runs_cons,
    Frame.runsUnder, Bool.false_eq_true, ↓reduceIte, Nat.add_zero]

theorem owed_erased (removalId idInfo i : Nat) (rest : List (Frame κ ρ)) :
    owed (.removeByID removalId idInfo .erased :: rest) i = if idInfo = i then 0 else runs rest i := by
  simp only [owed, excluded, List.head?_cons, Option.bind_some, Frame.excludes, Option.some.injEq, runs_cons,
    Frame.runsUnder, Bool.false_eq_true, ↓reduceIte, Nat.add_zero]

theorem locked_removeByID {enter : κ → ρ} {removalId idInfo : Nat} {phase : RemovePhase} {rest : List (Frame κ ρ)}
    (hFrames : th.frames = .removeByID removalId idInfo phase :: rest) (h : Locked q th.tls th.frames)
    (hStep : th.advance enter 0 q = some next) : Locked next.1 next.2.tls next.2.frames := by
  rw [hFrames] at h
  have hFits := h.fits removalId idInfo phase rest rfl
  have hReplace {phase' : RemovePhase} {tls' : TLS κ} (hCalling : tls'.callingInThisThread = th.tls.callingInThisThread) :
      Locked.Moves q tls' (.removeByID removalId idInfo phase :: rest) (.removeByID removalId idInfo phase' :: rest) := by
    refine .replace h.below (fun i hSome => .inl hSome) ?_
    intro _ _ _ hFrame
    cases hFrame
    rw [hCalling]
    exact hFits
  simp only [Thread.advance, hFrames] at hStep
  cases phase with
  | found =>
    cases hStep
    have hOthers (i : Nat) (hOther : idInfo ≠ i) : owed (.removeByID removalId idInfo .unlocked :: rest) i =
        owed (.removeByID removalId idInfo .found :: rest) i := by
      rw [owed_unlocked, if_neg hOther, owed_of_not_running rfl rfl]
    dsimp only
    split
    · rename_i hReleased
      rw [if_pos hReleased] at hFits
      refine h.unlock (hReplace rfl) ?_ hOthers
      rw [owed_of_not_running rfl rfl, hFits, owed_unlocked, if_pos rfl]
    · rename_i hReleased
      rw [if_neg hReleased] at hFits
      refine h.carry (hReplace rfl) rfl (fun _ _ hId => hId) fun i => ?_
      by_cases hHere : idInfo = i
      · subst hHere
        rw [owed_unlocked, if_pos rfl, owed_of_not_running rfl rfl, hFits]
      · exact hOthers i hHere
  | unlocked =>
    dsimp only at hStep
    split at hStep
    · cases hStep
      refine h.carry (hReplace rfl) rfl (fun _ _ hId => hId) fun i => ?_
      rw [owed_unlocked, owed_erased]
    · cases hStep
  | erased =>
    cases hStep
    have hOthers (i : Nat) (hOther : idInfo ≠ i) : owed (.removeByID removalId idInfo .marked :: rest) i =
        owed (.removeByID removalId idInfo .erased :: rest) i := by
      rw [owed_erased, if_neg hOther, owed_of_not_running rfl rfl]
    dsimp only
    split
    · rename_i hReleased
      rw [if_pos hReleased] at hFits
      refine h.lock (hReplace rfl) ?_ hOthers
      rw [owed_of_not_running rfl rfl, hFits, owed_erased, if_pos rfl]
    · rename_i hReleased
      rw [if_neg hReleased] at hFits
      refine h.carry (hReplace rfl) rfl (fun _ _ hId => hId) fun i => ?_
      by_cases hHere : idInfo = i
      · subst hHere
        rw [owed_erased, if_pos rfl, owed_of_not_running rfl rfl, hFits]
      · exact hOthers i hHere
  | marked =>
    cases hStep
    refine locked_pop h rfl rfl rfl ?_
    intro id i hId
    simp only [CallbackQueue.eraseIDInfo] at hId
    split at hId
    · cases hId
    · exact hId

theorem locked_advance {enter : κ → ρ} (h : Locked q th.tls th.frames)
    (hStep : th.advance enter 0 q = some next) : Locked next.1 next.2.tls next.2.frames := by
  cases hFrames : th.frames with
  | nil =>
    simp only [Thread.advance, hFrames, reduceCtorEq] at hStep
  | cons frame rest =>
    cases frame with
    | removeByID removalId idInfo phase => exact locked_removeByID hFrames h hStep
    | running caller info idInfo lastCalling place => simp only [Thread.advance, hFrames, reduceCtorEq] at hStep
    | addCallback info =>
      rw [hFrames] at h
      simp only [Thread.advance, hFrames] at hStep
      cases hStep
      refine locked_pop h rfl rfl ?_ fun id i hId => ?_
      · rw [CallbackQueue.push]
        split <;> rfl
      · rwa [CallbackQueue.push_idInfo] at hId
    | callOneCB caller =>
      rw [hFrames] at h
      simp only [Thread.advance, hFrames] at hStep
      cases hStep
      exact locked_lookUp _ h
    | lookedUp caller info idInfo =>
      rw [hFrames] at h
      simp only [Thread.advance, hFrames] at hStep
      split at hStep
      · cases hStep
        exact locked_replace h rfl rfl rfl
      · cases hStep
        refine h.lock (.replace h.below (fun i hSome => .inl hSome) ?_) ?_ fun i hOther => ?_
        · intro _ _ _ hFrame
          cases hFrame
        · rw [owed_cons rfl, owed_of_not_running rfl rfl]
          simp [Frame.runsUnder]
        · rw [owed_cons rfl, owed_of_not_running rfl rfl]
          simp [Frame.runsUnder, hOther]
    | returned caller result =>
      rw [hFrames] at h
      cases caller with
      | callOne =>
        simp only [Thread.advance, hFrames] at hStep
        cases hStep
        refine locked_pop h rfl rfl ?_ fun id i hId => ?_
        · dsimp only
          split <;> rfl
        · dsimp only at hId
          split at hId <;> exact hId
      | callAvailable called =>
        simp only [Thread.advance, hFrames] at hStep
        split at hStep
        · cases hStep
          exact locked_pop h rfl rfl rfl fun _ _ hId => hId
        · cases hStep
          exact locked_replace h rfl rfl rfl

theorem locked_finish {result : CallResult} (h : Locked q th.tls th.frames)
    (hStep : th.finish 0 result q = some next) : Locked next.1 next.2.tls next.2.frames := by
  simp only [Thread.finish] at hStep
  split at hStep
  · rename_i caller info idInfo lastCalling place rest hFrames
    rw [hFrames] at h
    have hReturned (tls' : TLS κ) (stored : List (CallbackInfo κ)) (result : CallOneResult) :
        Locked ({ q with callbacks := stored }.unlockShared idInfo 0) tls' (.returned caller result :: rest) := by
      have hStored : Locked { q with callbacks := stored } th.tls (.running caller info idInfo lastCalling place :: rest) :=
        ⟨h.below, h.registered, h.found, h.locks, h.fits⟩
      refine hStored.unlock (.replace h.below ?_ ?_) ?_ fun i hOther => ?_
      · intro i hSome
        cases hSome
      · intro _ _ _ hFrame
        cases hFrame
      · rw [owed_cons rfl, owed_of_not_running rfl rfl]
        simp [Frame.runsUnder]
      · rw [owed_of_not_running rfl rfl, owed_cons rfl]
        simp [Frame.runsUnder, hOther]
    split at hStep
    · cases hStep
      exact hReturned _ _ _
    · cases hStep
      exact hReturned _ q.callbacks _
  · cases hStep

theorem locked_queueOnly {s s' : State κ} {f : CallbackQueue κ → CallbackQueue κ}
    (h : Locked s.queue s.thread.tls s.thread.frames) (hInfos : (f s.queue).idInfos = s.queue.idInfos)
    (hIdInfo : (f s.queue).idInfo = s.queue.idInfo) (hStep : s.queueOnly f = some s') :
    Locked s'.queue s'.thread.tls s'.thread.frames := by
  rw [State.queueOnly] at hStep
  split at hStep
  · cases hStep
    exact locked_tls h rfl hInfos hIdInfo
  · cases hStep

theorem locked_step {s s' : State κ} {a : Label κ} (h : Locked s.queue s.thread.tls s.thread.frames)
    (hOk : InnermostOnly s a) (hStep : s.step a = some s') : Locked s'.queue s'.thread.tls s'.thread.frames := by
  cases a with
  | call c =>
    simp only [State.step] at hStep
    split at hStep
    · rename_i hMay
      cases hStep
      refine locked_call h hMay ?_
      rintro removalId idInfo rfl hId
      simpa only [InnermostOnly, innermostOnly, hId, Option.all_some, beq_iff_eq] using hOk
    · cases hStep
  | enable => exact locked_queueOnly h rfl rfl hStep
  | disable => exact locked_queueOnly h rfl rfl hStep
  | clear => exact locked_queueOnly h rfl rfl hStep
  | advance =>
    obtain ⟨next, hNext, rfl⟩ := Option.map_eq_some_iff.mp hStep
    exact locked_advance h hNext
  | finish result =>
    obtain ⟨next, hNext, rfl⟩ := Option.map_eq_some_iff.mp hStep
    exact locked_finish h hNext

theorem locked_start : Locked (κ := κ) (ρ := ρ) .start .start [] where
  below := by simp
  registered _ _ h := by cases h
  found := by simp
  locks _ _ h := by cases h
  fits _ _ _ _ h := by cases h

/-! ## The runs -/

theorem Locked.held_eq {q : CallbackQueue κ} {tls : TLS κ} {frames : List (Frame κ ρ)} (h : Locked q tls frames)
    (idInfo : Nat) : q.held idInfo 0 = owed frames idInfo := by
  rw [CallbackQueue.held]
  cases hInfo : q.idInfos[idInfo]? with
  | none =>
    have hZero : owed frames idInfo = 0 := by
      rw [owed, h.runs_eq_zero (List.getElem?_eq_none_iff.mp hInfo), ite_self]
    rw [hZero]
    rfl
  | some info =>
    rw [Option.map_some, Option.getD_some, h.locks idInfo info hInfo, List.count_replicate_self]

theorem Locked.locksKept {s : State κ} (h : Locked s.queue s.thread.tls s.thread.frames) : LocksKept s where
  released := by
    intro removalId idInfo rest hFrames hReleased
    have hFits := h.fits removalId idInfo .found rest hFrames
    rw [if_pos hReleased] at hFits
    rw [h.held_eq, hFrames, owed_of_not_running rfl rfl, hFits]
    exact Nat.one_pos
  requested := by
    intro removalId idInfo rest hFrames
    rw [CallbackQueue.lockable, Option.all_eq_true]
    intro info hInfo
    have hLocks := h.locks idInfo info hInfo
    rw [hFrames, owed_unlocked, if_pos rfl] at hLocks
    rw [hLocks]
    rfl
  kept := by
    intro idInfo hExcluded
    rw [h.held_eq, owed, if_neg hExcluded]

def ownRemovalRun : List (Label Nat) :=
  [.call (.addCallback 0 7), .advance, .call (.addCallback 1 8), .advance, .call .callAvailable, .advance, .advance,
    .call (.removeByID 7), .advance, .advance, .advance, .advance, .call (.removeByID 8), .advance, .advance, .advance,
    .advance]

def enclosingRemovalRun : List (Label Nat) :=
  [.call (.addCallback 0 7), .advance, .call (.addCallback 1 8), .advance, .call (.callOne fun _ => true), .advance,
    .advance, .call (.callOne fun _ => true), .advance, .advance, .call (.removeByID 7), .advance]

def reusedRemovalRun : List (Label Nat) :=
  [.call (.addCallback 0 7), .advance, .call (.callOne fun _ => true), .advance, .advance, .call (.removeByID 7),
    .advance, .advance, .advance, .advance, .call (.addCallback 1 7), .advance, .call (.removeByID 7)]

end CallbackThread

end XcRos.Libros
