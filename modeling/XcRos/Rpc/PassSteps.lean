import XcRos.Rpc.Work

/-! # Sources that go away during a pass

A pass of `RobotRpcDispatch::work` goes through the sources that it polled, whatever the handlers
make of the list meanwhile. Here it is a sequence of steps: the handlers that are called, what they
call, and what the masks that they returned are made of.
-/

namespace XcRos.Rpc

namespace Mask

/-- The bits of an `unsigned` that `work` looks at. -/
def ofWord (w : UInt32) : Mask := ⟨w &&& 1 != 0, w &&& 2 != 0, w &&& 4 != 0⟩

def word (m : Mask) : UInt32 :=
  (if m.readable then 1 else 0) ||| (if m.writable then 2 else 0) ||| (if m.exception then 4 else 0)

@[simp] theorem ofWord_word (m : Mask) : ofWord m.word = m := by
  obtain ⟨_ | _, _ | _, _ | _⟩ := m <;> rfl

theorem word_inter (m n : Mask) : (m.inter n).word = m.word &&& n.word := by
  obtain ⟨_ | _, _ | _, _ | _⟩ := m <;> obtain ⟨_ | _, _ | _, _ | _⟩ := n <;> rfl

theorem word_eq_zero_iff (m : Mask) : m.word = 0 ↔ m = none := by
  obtain ⟨_ | _, _ | _, _ | _⟩ := m <;> decide

theorem word_ne_max (m : Mask) : m.word ≠ 0xFFFFFFFF := by
  obtain ⟨_ | _, _ | _, _ | _⟩ := m <;> decide

theorem max_and_word (m : Mask) : 0xFFFFFFFF &&& m.word = m.word := by
  obtain ⟨_ | _, _ | _, _ | _⟩ := m <;> rfl

end Mask

inductive PassStep where
  | handleEvent (source : Nat) (event : EventType)
  | call (c : Call)
  /-- The conjunction of what the handlers of a source returned is put to use. -/
  | answer (source : Nat) (newMask : UInt32)
  /-- `_sources.clear()` -/
  | dropAll
  /-- `_doClear = false` -/
  | clearDone
deriving DecidableEq, Repr

namespace PassStep

def run (d : Dispatcher) : PassStep → Dispatcher
  | .handleEvent _ _ => d
  | .call c => d.call c
  | .answer source newMask =>
    if newMask = 0 then d.removeSource source
    else if newMask = 0xFFFFFFFF then d
    else d.setSourceEvents source (.ofWord newMask)
  | .dropAll => { d with sources := [] }
  | .clearDone => { d with doClear := false }

def gives (source : Nat) : PassStep → Option Mask
  | .call (.addSource s mask) => if s = source then some mask else none
  | .call (.setSourceEvents s mask) => if s = source then some mask else none
  | .answer s newMask =>
    if s = source ∧ newMask ≠ 0 ∧ newMask ≠ 0xFFFFFFFF then some (.ofWord newMask) else none
  | _ => none

def count (source : Nat) (n : Nat) : PassStep → Nat
  | .call (.addSource s _) => if s = source then n + 1 else n
  | .call (.removeSource s) => if s = source then n - 1 else n
  | .answer s newMask => if s = source ∧ newMask = 0 then n - 1 else n
  | .dropAll => 0
  | _ => n

/-- What a step makes of the masks with which a source is registered, the first one first. -/
def onMasks (source : Nat) (masks : List Mask) : PassStep → List Mask
  | .call (.addSource s mask) => if s = source then masks ++ [mask] else masks
  | .call (.removeSource s) => if s = source then masks.tail else masks
  | .call (.setSourceEvents s mask) => if s = source then masks.modifyHead fun _ => mask else masks
  | .answer s newMask =>
    if s = source then
      if newMask = 0 then masks.tail
      else if newMask = 0xFFFFFFFF then masks
      else masks.modifyHead fun _ => .ofWord newMask
    else masks
  | .dropAll => []
  | _ => masks

end PassStep

/-- The answer of `poll` and what the handlers do, by the position of the source in the list that
was polled. -/
structure PassHandlers where
  revents : Nat → Mask
  handleEvent : Nat → EventType → List Call × UInt32
  keepOpen : Nat → Bool
  close : Nat → List Call
  closeAll : List Call

structure PassTrace where
  dispatcher : Dispatcher
  steps : List PassStep

namespace PassTrace

def step (t : PassTrace) (s : PassStep) : PassTrace := ⟨s.run t.dispatcher, t.steps ++ [s]⟩

def calls (t : PassTrace) (made : List Call) : PassTrace := made.foldl (fun t c => t.step (.call c)) t

def handleEvents (input : PassHandlers) (i source : Nat) : List EventType → PassTrace → UInt32 → PassTrace × UInt32
  | [], t, newMask => (t, newMask)
  | event :: events, t, newMask =>
    let result := input.handleEvent i event
    handleEvents input i source events ((t.step (.handleEvent source event)).calls result.1) (newMask &&& result.2)

/-- What is done with `newMask`; nothing if the source is not found any more. -/
def reconcile (input : PassHandlers) (i source : Nat) (t : PassTrace) (newMask : UInt32) : PassTrace :=
  if t.dispatcher.sources.all (·.source != source) then t
  else if newMask = 0 then
    let t := t.step (.answer source newMask)
    if input.keepOpen i then t else t.calls (input.close i)
  else t.step (.answer source newMask)

def handleSource (input : PassHandlers) (i : Nat) (src : MonitoredSource) (t : PassTrace) : PassTrace :=
  let r := handleEvents input i src.source (src.mask.answered (input.revents i)) t 0xFFFFFFFF
  reconcile input i src.source r.1 r.2

def handleSources (input : PassHandlers) : List MonitoredSource → Nat → PassTrace → PassTrace
  | [], _, t => t
  | src :: rest, i, t => handleSources input rest (i + 1) (t.handleSource input i src)

/-- `if (_doClear)` -/
def clearPending (input : PassHandlers) (t : PassTrace) : PassTrace :=
  if t.dispatcher.doClear then ((t.step .dropAll).calls input.closeAll).step .clearDone else t

end PassTrace

/-- A pass in which `poll` answers, step by step. -/
def passTrace (input : PassHandlers) (d : Dispatcher) : PassTrace :=
  (PassTrace.handleSources input d.sources 0 ⟨d, []⟩).clearPending input

namespace Dispatcher

def after (d : Dispatcher) (steps : List PassStep) : Dispatcher := steps.foldl PassStep.run d

def masksOf (d : Dispatcher) (source : Nat) : List Mask := (d.sources.filter (·.source = source)).map (·.mask)

end Dispatcher

def HandlesRegistered (input : PassHandlers) (d : Dispatcher) : Prop :=
  ∀ n source event, (passTrace input d).steps[n]? = some (.handleEvent source event) →
    ∃ mask, ⟨source, mask⟩ ∈ (d.after ((passTrace input d).steps.take n)).sources

/-- A source that is left at the end has a mask from its own registration, or that its own handler
returned or that was set for it; of these, unless it was registered twice at a time, the last one. -/
def KeepsOwnMasks (input : PassHandlers) (d : Dispatcher) : Prop :=
  ∀ source mask, ⟨source, mask⟩ ∈ (passTrace input d).dispatcher.sources →
    (mask ∈ d.masksOf source ∨ ∃ step ∈ (passTrace input d).steps, step.gives source = some mask) ∧
      ((∀ n, ((d.after ((passTrace input d).steps.take n)).masksOf source).length ≤ 1) →
        (passTrace input d).steps.foldl (fun given step => (step.gives source).or given) (d.masksOf source).head? =
          some mask)

/-- Whenever a handler is called, its source has been added more often than it was removed, or
dropped because a handler of it returned `0`. -/
def AddedWhenHandled (input : PassHandlers) (d : Dispatcher) : Prop :=
  ∀ n source event, (passTrace input d).steps[n]? = some (.handleEvent source event) →
    0 < ((passTrace input d).steps.take n).foldl (PassStep.count source) (d.masksOf source).length

/-! ## The registrations of one source -/

theorem filter_replaceMask (source : Nat) (mask : Mask) (other : Nat) (sources : List MonitoredSource) :
    ((Dispatcher.replaceMask source mask sources).filter (·.source = other)).map (·.mask) =
      if source = other then ((sources.filter (·.source = other)).map (·.mask)).modifyHead fun _ => mask
      else (sources.filter (·.source = other)).map (·.mask) := by
  induction sources with
  | nil => simp [Dispatcher.replaceMask]
  | cons it rest ih =>
    rw [Dispatcher.replaceMask]
    by_cases hThis : it.source = source
    · subst hThis
      by_cases hOther : it.source = other
      · simp [hOther]
      · simp [hOther]
    · rw [if_neg hThis]
      by_cases hOther : it.source = other
      · have hNot : source ≠ other := fun hSame => hThis (hOther.trans hSame.symm)
        rw [List.filter_cons_of_pos (by simpa using hOther), List.filter_cons_of_pos (by simpa using hOther),
          List.map_cons, List.map_cons, ih, if_neg hNot, if_neg hNot]
      · rw [List.filter_cons_of_neg (by simpa using hOther), List.filter_cons_of_neg (by simpa using hOther), ih]

theorem filter_eraseP (source other : Nat) (sources : List MonitoredSource) :
    ((sources.eraseP (·.source == source)).filter (·.source = other)).map (·.mask) =
      if source = other then ((sources.filter (·.source = other)).map (·.mask)).tail
      else (sources.filter (·.source = other)).map (·.mask) := by
  induction sources with
  | nil => simp
  | cons it rest ih =>
    by_cases hThis : it.source = source
    · subst hThis
      by_cases hOther : it.source = other
      · simp [hOther]
      · simp [hOther]
    · rw [List.eraseP_cons_of_neg (by simpa using hThis)]
      by_cases hOther : it.source = other
      · have hNot : source ≠ other := fun hSame => hThis (hOther.trans hSame.symm)
        rw [List.filter_cons_of_pos (by simpa using hOther), List.filter_cons_of_pos (by simpa using hOther),
          List.map_cons, List.map_cons, ih, if_neg hNot, if_neg hNot]
      · rw [List.filter_cons_of_neg (by simpa using hOther), List.filter_cons_of_neg (by simpa using hOther), ih]

namespace Dispatcher

@[simp] theorem masksOf_removeSource (d : Dispatcher) (s source : Nat) :
    (d.removeSource s).masksOf source = if s = source then (d.masksOf source).tail else d.masksOf source :=
  filter_eraseP s source d.sources

@[simp] theorem masksOf_setSourceEvents (d : Dispatcher) (s : Nat) (mask : Mask) (source : Nat) :
    (d.setSourceEvents s mask).masksOf source =
      if s = source then (d.masksOf source).modifyHead fun _ => mask else d.masksOf source :=
  filter_replaceMask s mask source d.sources

@[simp] theorem masksOf_addSource (d : Dispatcher) (s : Nat) (mask : Mask) (source : Nat) :
    (d.addSource s mask).masksOf source = if s = source then d.masksOf source ++ [mask] else d.masksOf source := by
  by_cases hSame : s = source
  · simp [masksOf, addSource, hSame]
  · simp [masksOf, addSource, hSame]

theorem mem_masksOf_iff {d : Dispatcher} {source : Nat} {mask : Mask} :
    mask ∈ d.masksOf source ↔ ⟨source, mask⟩ ∈ d.sources := by
  simp only [masksOf, List.mem_map, List.mem_filter, decide_eq_true_eq]
  constructor
  · rintro ⟨it, ⟨hMem, rfl⟩, rfl⟩
    exact hMem
  · intro hMem
    exact ⟨_, ⟨hMem, rfl⟩, rfl⟩

end Dispatcher

theorem inWork_run (s : PassStep) (d : Dispatcher) : (s.run d).inWork = d.inWork := by
  cases s with
  | call c =>
    cases c with
    | clear =>
      rw [PassStep.run, Dispatcher.call, Dispatcher.clear]
      split <;> rfl
    | _ => rfl
  | answer source newMask =>
    rw [PassStep.run]
    split
    · rfl
    · split <;> rfl
  | _ => rfl

theorem masksOf_run {d : Dispatcher} (hWork : d.inWork = true) (s : PassStep) (source : Nat) :
    (s.run d).masksOf source = s.onMasks source (d.masksOf source) := by
  cases s with
  | handleEvent _ _ => rfl
  | call c =>
    cases c with
    | addSource s mask => exact d.masksOf_addSource s mask source
    | removeSource s => exact d.masksOf_removeSource s source
    | setSourceEvents s mask => exact d.masksOf_setSourceEvents s mask source
    | exit => rfl
    | clear =>
      rw [PassStep.run, Dispatcher.call, Dispatcher.clear, if_pos hWork]
      rfl
  | answer s newMask =>
    rw [PassStep.run, PassStep.onMasks]
    by_cases hZero : newMask = 0
    · simp [hZero]
    · by_cases hMax : newMask = 0xFFFFFFFF
      · simp [hMax]
      · simp [hZero, hMax]
  | dropAll => rfl
  | clearDone => rfl

theorem masksOf_after {d : Dispatcher} (hWork : d.inWork = true) (steps : List PassStep) (source : Nat) :
    (d.after steps).masksOf source = steps.foldl (PassStep.onMasks source) (d.masksOf source) := by
  induction steps generalizing d with
  | nil => rfl
  | cons s rest ih =>
    have hRest := ih ((inWork_run s d).trans hWork)
    rw [masksOf_run hWork] at hRest
    exact hRest

theorem length_onMasks (source : Nat) (masks : List Mask) (s : PassStep) :
    (s.onMasks source masks).length = s.count source masks.length := by
  cases s with
  | call c =>
    cases c with
    | addSource s mask =>
      simp only [PassStep.onMasks, PassStep.count]
      split <;> simp
    | removeSource s =>
      simp only [PassStep.onMasks, PassStep.count]
      split <;> simp
    | setSourceEvents s mask =>
      simp only [PassStep.onMasks, PassStep.count]
      split <;> simp
    | _ => rfl
  | answer s newMask =>
    simp only [PassStep.onMasks, PassStep.count]
    by_cases hSame : s = source
    · by_cases hZero : newMask = 0
      · simp [hSame, hZero]
      · by_cases hMax : newMask = 0xFFFFFFFF
        · simp [hSame, hMax]
        · simp [hSame, hZero, hMax]
    · simp [hSame]
  | _ => rfl

theorem length_foldl_onMasks (source : Nat) (steps : List PassStep) (masks : List Mask) :
    (steps.foldl (PassStep.onMasks source) masks).length = steps.foldl (PassStep.count source) masks.length := by
  induction steps generalizing masks with
  | nil => rfl
  | cons s rest ih => rw [List.foldl_cons, List.foldl_cons, ih, length_onMasks]

theorem registered_after_iff {d : Dispatcher} (hWork : d.inWork = true) (steps : List PassStep) (source : Nat) :
    (∃ mask, ⟨source, mask⟩ ∈ (d.after steps).sources) ↔
      0 < steps.foldl (PassStep.count source) (d.masksOf source).length := by
  rw [← length_foldl_onMasks, ← masksOf_after hWork, List.length_pos_iff_exists_mem]
  simp only [Dispatcher.mem_masksOf_iff]

/-! ## The masks of one source -/

theorem mem_onMasks {source : Nat} {masks : List Mask} {s : PassStep} {mask : Mask}
    (h : mask ∈ s.onMasks source masks) : mask ∈ masks ∨ s.gives source = some mask := by
  have hHead : ∀ m, mask ∈ masks.modifyHead (fun _ => m) → mask ∈ masks ∨ m = mask := by
    intro m hMem
    cases masks with
    | nil => exact absurd hMem List.not_mem_nil
    | cons first rest =>
      rcases List.mem_cons.mp hMem with hSame | hRest
      · exact .inr hSame.symm
      · exact .inl (List.mem_cons_of_mem _ hRest)
  cases s with
  | call c =>
    cases c with
    | addSource s m =>
      simp only [PassStep.onMasks, PassStep.gives] at h ⊢
      split at h
      · rename_i hSame
        rcases List.mem_append.mp h with hOld | hNew
        · exact .inl hOld
        · rw [if_pos hSame, List.mem_singleton.mp hNew]
          exact .inr rfl
      · exact .inl h
    | removeSource s =>
      simp only [PassStep.onMasks] at h
      split at h
      · exact .inl (List.mem_of_mem_tail h)
      · exact .inl h
    | setSourceEvents s m =>
      simp only [PassStep.onMasks, PassStep.gives] at h ⊢
      split at h
      · rename_i hSame
        rw [if_pos hSame]
        exact (hHead m h).imp_right (congrArg some)
      · exact .inl h
    | _ => exact .inl h
  | answer s newMask =>
    simp only [PassStep.onMasks, PassStep.gives] at h ⊢
    split at h
    · rename_i hSame
      split at h
      · exact .inl (List.mem_of_mem_tail h)
      · rename_i hZero
        split at h
        · exact .inl h
        · rename_i hMax
          rw [if_pos ⟨hSame, hZero, hMax⟩]
          exact (hHead _ h).imp_right (congrArg some)
    · exact .inl h
  | dropAll => exact absurd h List.not_mem_nil
  | _ => exact .inl h

theorem mem_foldl_onMasks {source : Nat} {steps : List PassStep} {masks : List Mask} {mask : Mask}
    (h : mask ∈ steps.foldl (PassStep.onMasks source) masks) :
    mask ∈ masks ∨ ∃ step ∈ steps, step.gives source = some mask := by
  induction steps generalizing masks with
  | nil => exact .inl h
  | cons s rest ih =>
    rcases ih h with hNext | ⟨step, hMem, hGives⟩
    · rcases mem_onMasks hNext with hOld | hGives
      · exact .inl hOld
      · exact .inr ⟨s, List.mem_cons_self, hGives⟩
    · exact .inr ⟨step, List.mem_cons_of_mem _ hMem, hGives⟩

theorem eq_of_gives {source : Nat} {masks : List Mask} {s : PassStep} {given mask : Mask}
    (hOne : masks.length ≤ 1) (hNext : (s.onMasks source masks).length ≤ 1) (hGives : s.gives source = some given)
    (h : mask ∈ s.onMasks source masks) : given = mask := by
  have hHead : ∀ m, mask ∈ masks.modifyHead (fun _ => m) → m = mask := by
    intro m hMem
    obtain rfl | ⟨first, rfl⟩ : masks = [] ∨ ∃ first, masks = [first] := by
      rcases masks with _ | ⟨first, _ | ⟨second, rest⟩⟩
      · exact .inl rfl
      · exact .inr ⟨first, rfl⟩
      · simp at hOne
    · exact absurd hMem List.not_mem_nil
    · exact (List.mem_singleton.mp hMem).symm
  cases s with
  | call c =>
    cases c with
    | addSource s m =>
      simp only [PassStep.onMasks, PassStep.gives] at h hNext hGives
      split at hGives
      · rename_i hSame
        rw [if_pos hSame] at h hNext
        rw [List.length_append, List.length_singleton] at hNext
        have hNone : masks = [] := List.eq_nil_of_length_eq_zero (by omega)
        rw [hNone, List.nil_append, List.mem_singleton] at h
        exact (Option.some.inj hGives).symm.trans h.symm
      · cases hGives
    | setSourceEvents s m =>
      simp only [PassStep.onMasks, PassStep.gives] at h hGives
      split at hGives
      · rename_i hSame
        rw [if_pos hSame] at h
        exact (Option.some.inj hGives).symm.trans (hHead m h)
      · cases hGives
    | _ => cases hGives
  | answer s newMask =>
    simp only [PassStep.onMasks, PassStep.gives] at h hGives
    split at hGives
    · rename_i hSome
      rw [if_pos hSome.1, if_neg hSome.2.1, if_neg hSome.2.2] at h
      exact (Option.some.inj hGives).symm.trans (hHead _ h)
    · cases hGives
  | _ => cases hGives

theorem last_given {source : Nat} {steps : List PassStep} {masks : List Mask} {given : Option Mask} {mask : Mask}
    (hOne : ∀ n, ((steps.take n).foldl (PassStep.onMasks source) masks).length ≤ 1)
    (hGiven : ∀ m ∈ masks, given = some m) (h : mask ∈ steps.foldl (PassStep.onMasks source) masks) :
    steps.foldl (fun given step => (step.gives source).or given) given = some mask := by
  induction steps generalizing masks given with
  | nil => exact hGiven mask h
  | cons s rest ih =>
    refine ih (fun n => hOne (n + 1)) ?_ h
    intro m hMem
    show (s.gives source).or given = some m
    cases hGives : s.gives source with
    | none =>
      rcases mem_onMasks hMem with hOld | hNew
      · exact hGiven m hOld
      · exact absurd (hGives.symm.trans hNew) (by simp)
    | some new => exact congrArg some (eq_of_gives (hOne 0) (hOne 1) hGives hMem)

/-! ## The steps of a pass -/

def PassTrace.Replays (d : Dispatcher) (t : PassTrace) : Prop := t.dispatcher = d.after t.steps

namespace PassTrace.Replays

variable {d : Dispatcher} {t : PassTrace}

theorem step (h : t.Replays d) (s : PassStep) : (t.step s).Replays d := by
  rw [Replays, PassTrace.step, Dispatcher.after, List.foldl_append, h]
  rfl

theorem calls (h : t.Replays d) (made : List Call) : (t.calls made).Replays d := by
  induction made generalizing t with
  | nil => exact h
  | cons c rest ih => exact ih (h.step (.call c))

theorem handleEvents {input : PassHandlers} {i source : Nat} {newMask : UInt32} (h : t.Replays d)
    (events : List EventType) : (PassTrace.handleEvents input i source events t newMask).1.Replays d := by
  induction events generalizing t newMask with
  | nil => exact h
  | cons event rest ih => exact ih ((h.step _).calls _)

theorem reconcile {input : PassHandlers} {i source : Nat} (h : t.Replays d) (newMask : UInt32) :
    (PassTrace.reconcile input i source t newMask).Replays d := by
  rw [PassTrace.reconcile]
  split
  · exact h
  · split
    · simp only
      split
      · exact h.step _
      · exact (h.step _).calls _
    · exact h.step _

theorem handleSources {input : PassHandlers} {sources : List MonitoredSource} {i : Nat} (h : t.Replays d) :
    (PassTrace.handleSources input sources i t).Replays d := by
  induction sources generalizing i t with
  | nil => exact h
  | cons src rest ih => exact ih ((h.handleEvents _).reconcile _)

theorem clearPending {input : PassHandlers} (h : t.Replays d) : (t.clearPending input).Replays d := by
  rw [PassTrace.clearPending]
  split
  · exact ((h.step .dropAll).calls input.closeAll).step .clearDone
  · exact h

end PassTrace.Replays

theorem passTrace_replays (input : PassHandlers) (d : Dispatcher) : (passTrace input d).Replays d := by
  have hStart : PassTrace.Replays d ⟨d, []⟩ := rfl
  exact hStart.handleSources.clearPending

theorem keepsOwnMasks (input : PassHandlers) {d : Dispatcher} (hWork : d.inWork = true) : KeepsOwnMasks input d := by
  intro source mask hMem
  rw [passTrace_replays input d, ← Dispatcher.mem_masksOf_iff, masksOf_after hWork] at hMem
  refine ⟨mem_foldl_onMasks hMem, ?_⟩
  intro hOne
  simp only [masksOf_after hWork] at hOne
  refine last_given hOne ?_ hMem
  intro m hFirst
  rcases hMasks : d.masksOf source with _ | ⟨first, _ | ⟨second, rest⟩⟩
  · rw [hMasks] at hFirst
    exact absurd hFirst List.not_mem_nil
  · rw [hMasks, List.mem_singleton] at hFirst
    rw [hFirst]
    rfl
  · have hStart := hOne 0
    rw [hMasks] at hStart
    simp at hStart

theorem handlesRegistered_iff {input : PassHandlers} {d : Dispatcher} (hWork : d.inWork = true) :
    HandlesRegistered input d ↔ AddedWhenHandled input d := by
  constructor
  · intro h n source event hStep
    exact (registered_after_iff hWork _ source).mp (h n source event hStep)
  · intro h n source event hStep
    exact (registered_after_iff hWork _ source).mpr (h n source event hStep)

def removing (i removed : Nat) : PassHandlers where
  revents _ := .readableEvent
  handleEvent j _ := (if j = i then [.removeSource removed] else [], 1)
  keepOpen _ := true
  close _ := []
  closeAll := []

def twoSources : Dispatcher := ⟨[⟨0, .readableEvent⟩, ⟨1, .readableEvent⟩], -1, false, true⟩

def PassHandlers.of (input : PassInput) (revents : Nat → Mask) : PassHandlers where
  revents := revents
  handleEvent i event := ((input.handleEvent i event).1, (input.handleEvent i event).2.word)
  keepOpen := input.keepOpen
  close := input.close
  closeAll := input.closeAll

def PassStep.made : PassStep → Option Call
  | .call c => some c
  | _ => none

structure PassTrace.Follows (t : PassTrace) (p : Progress) : Prop where
  dispatcher : t.dispatcher = p.dispatcher
  made : t.steps.filterMap PassStep.made = p.made

namespace PassTrace.Follows

variable {t : PassTrace} {p : Progress}

theorem step (h : t.Follows p) {s : PassStep} (hNone : s.made = none) :
    (t.step s).Follows { p with dispatcher := s.run p.dispatcher } where
  dispatcher := congrArg (fun d => s.run d) h.dispatcher
  made := by
    rw [PassTrace.step, List.filterMap_append, h.made]
    simp [hNone]

theorem call (h : t.Follows p) (c : Call) : (t.step (.call c)).Follows (p.make [c]) where
  dispatcher := congrArg (Dispatcher.call · c) h.dispatcher
  made := by
    rw [PassTrace.step, List.filterMap_append, h.made]
    rfl

theorem make_append (p : Progress) (first second : List Call) : (p.make first).make second = p.make (first ++ second) := by
  rw [Progress.make, Progress.make, Progress.make, List.foldl_append, List.append_assoc]

theorem calls (h : t.Follows p) (made : List Call) : (t.calls made).Follows (p.make made) := by
  induction made generalizing t p with
  | nil =>
    rw [Progress.make, List.append_nil]
    exact h
  | cons c rest ih =>
    have hRest := ih (h.call c)
    rw [make_append] at hRest
    exact hRest

theorem handleEvents {input : PassInput} {revents : Nat → Mask} {i source : Nat} {newMask : UInt32} (h : t.Follows p)
    (events : List EventType) :
    (PassTrace.handleEvents (.of input revents) i source events t newMask).1.Follows
      (p.make ((events.map (input.handleEvent i)).flatMap (·.1))) := by
  induction events generalizing t p newMask with
  | nil =>
    rw [List.map_nil, List.flatMap_nil, Progress.make, List.append_nil]
    exact h
  | cons event rest ih =>
    have hEvent : (t.step (.handleEvent source event)).Follows p := h.step rfl
    have hRest : (PassTrace.handleEvents (.of input revents) i source (event :: rest) t newMask).1.Follows _ :=
      ih (hEvent.calls (input.handleEvent i event).1)
    rw [make_append] at hRest
    exact hRest

end PassTrace.Follows

theorem newMask_handleEvents {input : PassInput} {revents : Nat → Mask} {i source : Nat} (events : List EventType)
    (t : PassTrace) (mask : Mask) :
    (PassTrace.handleEvents (.of input revents) i source events t mask.word).2 =
      ((events.map (input.handleEvent i)).foldl (fun mask r => mask.inter r.2) mask).word := by
  induction events generalizing t mask with
  | nil => rfl
  | cons event rest ih =>
    rw [PassTrace.handleEvents, List.map_cons, List.foldl_cons]
    show (PassTrace.handleEvents _ i source rest _ (mask.word &&& (input.handleEvent i event).2.word)).2 = _
    rw [← Mask.word_inter]
    exact ih _ _

namespace PassTrace.Follows

variable {t : PassTrace} {p : Progress}

theorem handleSource {input : PassInput} {revents : Nat → Mask} (h : t.Follows p) (i : Nat) (src : MonitoredSource) :
    (t.handleSource (.of input revents) i src).Follows (p.handleSource input i src (revents i)) := by
  rw [Progress.handleSource, PassTrace.handleSource]
  show Follows (PassTrace.reconcile _ i src.source
    (PassTrace.handleEvents _ i src.source (src.mask.answered (revents i)) t 0xFFFFFFFF).1
    (PassTrace.handleEvents _ i src.source (src.mask.answered (revents i)) t 0xFFFFFFFF).2) _
  cases hEvents : src.mask.answered (revents i) with
  | nil =>
    show Follows (PassTrace.reconcile _ i src.source t 0xFFFFFFFF) p
    rw [PassTrace.reconcile]
    split
    · exact h
    · rw [if_neg (by decide)]
      exact h.step rfl
  | cons event rest =>
    have hMade : (PassTrace.handleEvents (.of input revents) i src.source (event :: rest) t 0xFFFFFFFF).1.Follows _ :=
      h.handleEvents (event :: rest)
    have hMask : (PassTrace.handleEvents (.of input revents) i src.source (event :: rest) t 0xFFFFFFFF).2 =
        (((event :: rest).map (input.handleEvent i)).foldl (fun mask r => mask.inter r.2) Mask.all).word := by
      rw [PassTrace.handleEvents, List.map_cons, List.foldl_cons]
      show (PassTrace.handleEvents _ i src.source rest _ (0xFFFFFFFF &&& (input.handleEvent i event).2.word)).2 = _
      rw [Mask.max_and_word, newMask_handleEvents]
      rfl
    rw [hMask]
    simp only [PassTrace.reconcile, hMade.dispatcher]
    split
    · exact hMade
    · generalize ((event :: rest).map (input.handleEvent i)).foldl (fun mask r => mask.inter r.2) Mask.all = newMask at hMade
      by_cases hNone : newMask = .none
      · rw [if_pos ((Mask.word_eq_zero_iff newMask).mpr hNone), if_pos hNone]
        have hGone := hMade.step (s := .answer src.source newMask.word) rfl
        rw [PassStep.run, if_pos ((Mask.word_eq_zero_iff newMask).mpr hNone)] at hGone
        show Follows (if input.keepOpen i then _ else PassTrace.calls _ (input.close i)) (if input.keepOpen i then _ else _)
        by_cases hKeep : input.keepOpen i = true
        · rw [if_pos hKeep, if_pos hKeep]
          exact hGone
        · rw [if_neg hKeep, if_neg hKeep]
          exact hGone.calls (input.close i)
      · have hSome := mt (Mask.word_eq_zero_iff newMask).mp hNone
        rw [if_neg hSome, if_neg hNone]
        have hSet := hMade.step (s := .answer src.source newMask.word) rfl
        rw [PassStep.run, if_neg hSome, if_neg (Mask.word_ne_max newMask), Mask.ofWord_word] at hSet
        exact hSet

theorem handleSources {input : PassInput} {revents : Nat → Mask} (sources : List MonitoredSource) (i : Nat)
    (h : t.Follows p) :
    (PassTrace.handleSources (.of input revents) sources i t).Follows (p.handleSources input revents sources i) := by
  induction sources generalizing i t p with
  | nil => exact h
  | cons src rest ih => exact ih (i + 1) (h.handleSource i src)

theorem clearPending {input : PassInput} {revents : Nat → Mask} (h : t.Follows p) :
    (t.clearPending (.of input revents)).Follows (p.clearPending input) := by
  rw [PassTrace.clearPending, Progress.clearPending, h.dispatcher]
  split
  · have hDropped : (t.step .dropAll).Follows _ := h.step rfl
    exact (hDropped.calls input.closeAll).step (s := .clearDone) rfl
  · exact h

end PassTrace.Follows

theorem passTrace_follows {input : PassInput} {revents : Nat → Mask} {d : Dispatcher} {p : Progress}
    (hRevents : input.revents = some revents) (hPass : pass input d = some p) :
    (passTrace (.of input revents) d).Follows p := by
  rw [pass, hRevents, Option.map_some, Option.some.injEq] at hPass
  subst hPass
  have hStart : PassTrace.Follows ⟨d, []⟩ ⟨d, []⟩ := ⟨rfl, rfl⟩
  exact (hStart.handleSources d.sources 0).clearPending

end XcRos.Rpc
