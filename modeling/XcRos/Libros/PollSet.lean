import Mathlib.Data.List.Basic
import Mathlib.Logic.Basic
import XcRos.Foundation.Machine

/-! # The poll set

One thread runs the passes of `PollSet::update`, while sockets are added and deleted by its own callbacks and by
other threads. What `poll` reports names descriptors, whose numbers are used again; the owner of a number is looked up
only when its turn comes. `socket_info_mutex_` is held over the sections of `addSocket` and `delSocket`, which also write
to the watcher and to `just_deleted_`.
-/

namespace XcRos.Libros.PollSet

open XcRos.Foundation

/-- `POLLERR | POLLHUP | POLLNVAL` -/
def errorBits : UInt32 := 8 ||| 16 ||| 32

def hasError (bits : UInt32) : Bool := bits &&& errorBits != 0

/-- An entry of `socket_info_`: as the how manyth it was added, and whether its update function is set. -/
structure SocketInfo where
  id : Nat
  events : UInt32
  callable : Bool
deriving DecidableEq, Repr

/-- Who holds `socket_info_mutex_` for more than one step, and how far it is. -/
inductive Mutex where
  | free
  | adding (fd : Int)
  | erased (fd : Int)
  | recorded (fd : Int)
deriving DecidableEq, Repr

inductive Phase where
  | idle
  | built
  | results (pending : List (Int × UInt32))
  | found (fd : Int) (revents : UInt32) (info : SocketInfo) (pending : List (Int × UInt32))
  | calling (pending : List (Int × UInt32))
deriving DecidableEq, Repr

/-- A call of an update function, with the number of sockets that were added when `poll` returned. -/
structure Call where
  id : Nat
  bits : UInt32
  polled : Nat
deriving DecidableEq, Repr

/-- Kept beside: how many sockets were added, how many of them when `poll` returned, and the calls made. -/
structure State where
  socketInfo : List (Int × SocketInfo)
  mutex : Mutex
  socketsChanged : Bool
  justDeleted : List Int
  ufds : List Int
  watcher : List Int
  phase : Phase
  added : Nat
  polled : Nat
  calls : List Call
deriving DecidableEq

inductive Op where
  | addSocket (fd : Int) (callable : Bool)
  | addToWatcher (watched : Bool)
  | delSocket (fd : Int)
  | pushDeleted
  | delFromWatcher
  | addEvents (fd : Int) (events : UInt32)
  | delEvents (fd : Int) (events : UInt32)
deriving DecidableEq, Repr

inductive Label where
  | op (o : Op)
  | createNativePollset
  | poll (reported : List (Int × UInt32))
  | pollFailed
  | lookup
  | check
  | returned
  | clear
deriving DecidableEq, Repr

namespace State

variable (s : State)

def start : State := ⟨[], .free, false, [], [], [], .idle, 0, 0, []⟩

def find (fd : Int) : Option SocketInfo := s.socketInfo.lookup fd

/-- The first part of `addSocket`: a number that is there already is refused. -/
def addSocket (fd : Int) (callable : Bool) : State :=
  match s.find fd with
  | some _ => s
  | none =>
    { s with
      socketInfo := (fd, ⟨s.added, 0, callable⟩) :: s.socketInfo
      added := s.added + 1
      mutex := .adding fd }

/-- The first part of `delSocket`. -/
def delSocket (fd : Int) : State :=
  if fd < 0 then s
  else
    match s.find fd with
    | some _ => { s with socketInfo := s.socketInfo.filter (·.1 ≠ fd), mutex := .erased fd }
    | none => s

def setEvents (fd : Int) (change : UInt32 → UInt32) : State :=
  match s.find fd with
  | some _ =>
    { s with
      socketInfo := s.socketInfo.map fun entry =>
        if entry.1 = fd then (entry.1, { entry.2 with events := change entry.2.events }) else entry
      socketsChanged := true }
  | none => s

def operate : Op → Option State
  | .addSocket fd callable => if s.mutex = .free then some (s.addSocket fd callable) else none
  | .addToWatcher watched =>
    match s.mutex with
    | .adding fd =>
      some { s with
        watcher := if watched then fd :: s.watcher else s.watcher
        socketsChanged := true
        mutex := .free }
    | _ => none
  | .delSocket fd => if s.mutex = .free then some (s.delSocket fd) else none
  | .pushDeleted =>
    match s.mutex with
    | .erased fd => some { s with justDeleted := s.justDeleted ++ [fd], mutex := .recorded fd }
    | _ => none
  | .delFromWatcher =>
    match s.mutex with
    | .recorded fd =>
      some { s with watcher := s.watcher.filter (· ≠ fd), socketsChanged := true, mutex := .free }
    | _ => none
  | .addEvents fd events => if s.mutex = .free then some (s.setEvents fd (· ||| events)) else none
  | .delEvents fd events => if s.mutex = .free then some (s.setEvents fd (· &&& ~~~events)) else none

/-- `createNativePollset` -/
def createNativePollset : State :=
  { s with
    ufds := if s.socketsChanged then s.socketInfo.map Prod.fst else s.ufds
    socketsChanged := false
    phase := .built }

def check (fd : Int) (revents : UInt32) (info : SocketInfo) (pending : List (Int × UInt32)) : State :=
  if info.callable ∧ (info.events &&& revents ≠ 0 ∨ hasError revents = true) ∧
      ¬ (hasError revents = true ∧ fd ∈ s.justDeleted) then
    { s with
      phase := .calling pending
      calls := ⟨info.id, revents &&& (info.events ||| errorBits), s.polled⟩ :: s.calls }
  else { s with phase := .results pending }

def step (s : State) : Label → Option State
  | .op o => s.operate o
  | .createNativePollset =>
    if s.phase = .idle ∧ s.mutex = .free then some s.createNativePollset else none
  | .poll reported =>
    -- with epoll the watcher is asked, otherwise the list that was built
    if s.phase = .built ∧ ∀ r ∈ reported, r.1 ∈ s.watcher ∨ r.1 ∈ s.ufds then
      some { s with phase := .results reported, polled := s.added }
    else none
  | .pollFailed => if s.phase = .built then some { s with phase := .results [], polled := s.added } else none
  | .lookup =>
    match s.phase with
    | .results ((fd, revents) :: pending) =>
      if revents = 0 then some { s with phase := .results pending }
      else if s.mutex = .free then
        match s.find fd with
        | none => some { s with phase := .results pending }
        | some info => some { s with phase := .found fd revents info pending }
      else none
    | _ => none
  | .check =>
    match s.phase with
    | .found fd revents info pending => some (s.check fd revents info pending)
    | _ => none
  | .returned =>
    match s.phase with
    | .calling pending => some { s with phase := .results pending }
    | _ => none
  | .clear => if s.phase = .results [] then some { s with phase := .idle, justDeleted := [] } else none

end State

def machine : Machine State Label := ⟨(· = State.start), State.step⟩

/-! ## The owner of a number -/

namespace State

variable {s s' : State} {fd : Int}

def owner (s : State) (fd : Int) : Option Nat := (s.find fd).map SocketInfo.id

/-- Under the number stands one of the first `b` sockets, or it was deleted in this pass. -/
def Held (s : State) (b : Nat) (fd : Int) : Prop :=
  (∃ id, s.owner fd = some id ∧ id < b) ∨ s.mutex = .erased fd ∨ fd ∈ s.justDeleted

def Present (s : State) (fd : Int) : Prop :=
  (s.owner fd).isSome ∨ s.mutex = .erased fd ∨ s.mutex = .recorded fd

theorem lookup_filter_ne {entries : List (Int × SocketInfo)} {fd other : Int} (h : other ≠ fd) :
    (entries.filter (·.1 ≠ fd)).lookup other = entries.lookup other := by
  induction entries with
  | nil => rfl
  | cons entry entries ih =>
    by_cases hEntry : entry.1 = fd
    · have hOther : (other == entry.1) = false := beq_eq_false_iff_ne.mpr (hEntry ▸ h)
      rw [List.filter_cons_of_neg (by simpa using hEntry), List.lookup_cons, hOther, ih]
    · rw [List.filter_cons_of_pos (by simpa using hEntry), List.lookup_cons, List.lookup_cons, ih]

theorem mem_lookup {entries : List (Int × SocketInfo)} {fd : Int} (h : fd ∈ entries.map Prod.fst) :
    (entries.lookup fd).isSome := by
  induction entries with
  | nil => cases h
  | cons entry entries ih =>
    rw [List.lookup_cons]
    cases hEntry : fd == entry.1 with
    | true => rfl
    | false => exact ih ((List.mem_cons.mp h).resolve_left (beq_eq_false_iff_ne.mp hEntry))

theorem owner_setEvents (s : State) (fd other : Int) (change : UInt32 → UInt32) :
    (s.setEvents fd change).owner other = s.owner other := by
  rw [setEvents]
  split
  · rw [owner, owner, find, find]
    generalize s.socketInfo = entries
    induction entries with
    | nil => rfl
    | cons entry entries ih =>
      rw [List.map_cons]
      split <;>
        · rw [List.lookup_cons, List.lookup_cons]
          cases other == entry.1 with
          | true => rfl
          | false => exact ih
  · rfl

theorem setEvents_keeps (s : State) (fd : Int) (change : UInt32 → UInt32) :
    ∃ entries changed, s.setEvents fd change = { s with socketInfo := entries, socketsChanged := changed } ∧
      (changed = false → s.socketsChanged = false) := by
  rw [setEvents]
  split
  · exact ⟨_, true, rfl, fun h => by cases h⟩
  · exact ⟨s.socketInfo, s.socketsChanged, rfl, id⟩

/-- What an operation can do; the owner of a number changes in the sections that hold the mutex alone. -/
inductive Operated (s : State) : State → Prop
  | refused : Operated s s
  | added {fd : Int} {callable : Bool} (hFree : s.mutex = .free) (hNone : s.owner fd = none) :
      Operated s { s with
        socketInfo := (fd, ⟨s.added, 0, callable⟩) :: s.socketInfo
        added := s.added + 1
        mutex := .adding fd }
  | watched {fd : Int} {watcher : List Int} (hMutex : s.mutex = .adding fd) (hWatcher : watcher ⊆ fd :: s.watcher) :
      Operated s { s with watcher := watcher, socketsChanged := true, mutex := .free }
  | erased {fd : Int} (hFree : s.mutex = .free) (hSome : (s.owner fd).isSome) :
      Operated s { s with socketInfo := s.socketInfo.filter (·.1 ≠ fd), mutex := .erased fd }
  | recorded {fd : Int} (hMutex : s.mutex = .erased fd) :
      Operated s { s with justDeleted := s.justDeleted ++ [fd], mutex := .recorded fd }
  | unwatched {fd : Int} (hMutex : s.mutex = .recorded fd) :
      Operated s { s with watcher := s.watcher.filter (· ≠ fd), socketsChanged := true, mutex := .free }
  | changed {entries : List (Int × SocketInfo)} {changed : Bool} (hFree : s.mutex = .free)
      (hOwner : ∀ fd, { s with socketInfo := entries, socketsChanged := changed }.owner fd = s.owner fd)
      (hChanged : changed = false → s.socketsChanged = false) :
      Operated s { s with socketInfo := entries, socketsChanged := changed }

theorem operated_setEvents (hFree : s.mutex = .free) (fd : Int) (change : UInt32 → UInt32) :
    Operated s (s.setEvents fd change) := by
  have hOwner := fun other => owner_setEvents s fd other change
  obtain ⟨entries, changed, hSet, hChanged⟩ := setEvents_keeps s fd change
  rw [hSet] at hOwner ⊢
  exact .changed hFree hOwner hChanged

theorem operate_cases {o : Op} (h : s.operate o = some s') : Operated s s' := by
  cases o with
  | addSocket fd callable =>
    obtain ⟨hFree, h⟩ := Option.ite_none_right_eq_some.mp h
    cases h
    rw [addSocket]
    cases hFind : s.find fd with
    | some info => exact .refused
    | none => exact .added hFree (by rw [owner, hFind, Option.map_none])
  | addToWatcher watched =>
    rw [operate] at h
    split at h <;> cases h
    rename_i fd hMutex
    refine .watched hMutex ?_
    split
    · exact fun _ => id
    · exact List.subset_cons_self _ _
  | delSocket fd =>
    obtain ⟨hFree, h⟩ := Option.ite_none_right_eq_some.mp h
    cases h
    rw [delSocket]
    split
    · exact .refused
    · cases hFind : s.find fd with
      | some info => exact .erased hFree (by rw [owner, hFind]; rfl)
      | none => exact .refused
  | pushDeleted =>
    rw [operate] at h
    split at h <;> cases h
    exact .recorded ‹_›
  | delFromWatcher =>
    rw [operate] at h
    split at h <;> cases h
    exact .unwatched ‹_›
  | addEvents fd events =>
    obtain ⟨hFree, h⟩ := Option.ite_none_right_eq_some.mp h
    cases h
    exact operated_setEvents hFree fd _
  | delEvents fd events =>
    obtain ⟨hFree, h⟩ := Option.ite_none_right_eq_some.mp h
    cases h
    exact operated_setEvents hFree fd _

theorem Operated.keeps (h : Operated s s') :
    s'.phase = s.phase ∧ s'.polled = s.polled ∧ s'.calls = s.calls ∧ s'.ufds = s.ufds ∧ s.added ≤ s'.added := by
  cases h with
  | added _ _ => exact ⟨rfl, rfl, rfl, rfl, Nat.le_succ _⟩
  | _ => exact ⟨rfl, rfl, rfl, rfl, Nat.le_refl _⟩

theorem owner_cons (s : State) (fd other : Int) (info : SocketInfo) (n : Nat) (mutex : Mutex) :
    { s with socketInfo := (fd, info) :: s.socketInfo, added := n, mutex := mutex }.owner other =
      if other = fd then some info.id else s.owner other := by
  rw [owner, find, List.lookup_cons]
  by_cases hOther : other = fd
  · simp [hOther]
  · have hFalse : (other == fd) = false := beq_eq_false_iff_ne.mpr hOther
    simp [hOther, hFalse, owner, find]

theorem owner_filter_of_ne (s : State) {fd other : Int} (h : other ≠ fd) (mutex : Mutex) :
    { s with socketInfo := s.socketInfo.filter (·.1 ≠ fd), mutex := mutex }.owner other = s.owner other := by
  rw [owner, owner, find, find, lookup_filter_ne h]

theorem Held.operated {b : Nat} (hHeld : s.Held b fd) (h : Operated s s') : s'.Held b fd := by
  cases h with
  | refused => exact hHeld
  | @added other callable hFree hNone =>
    obtain ⟨id, hOwner, hId⟩ | hErased | hDeleted := hHeld
    · refine .inl ⟨id, ?_, hId⟩
      have hNe : fd ≠ other := by
        rintro rfl
        rw [hNone] at hOwner
        cases hOwner
      rw [owner_cons, if_neg hNe]
      exact hOwner
    · rw [hFree] at hErased
      cases hErased
    · exact .inr (.inr hDeleted)
  | watched hMutex _ =>
    obtain hOwner | hErased | hDeleted := hHeld
    · exact .inl hOwner
    · rw [hMutex] at hErased
      cases hErased
    · exact .inr (.inr hDeleted)
  | @erased other hFree _ =>
    obtain ⟨id, hOwner, hId⟩ | hErased | hDeleted := hHeld
    · rcases eq_or_ne fd other with rfl | hNe
      · exact .inr (.inl rfl)
      · exact .inl ⟨id, by rw [owner_filter_of_ne _ hNe]; exact hOwner, hId⟩
    · rw [hFree] at hErased
      cases hErased
    · exact .inr (.inr hDeleted)
  | recorded hMutex =>
    obtain hOwner | hErased | hDeleted := hHeld
    · exact .inl hOwner
    · rw [hMutex] at hErased
      cases hErased
      exact .inr (.inr (List.mem_append_right _ List.mem_cons_self))
    · exact .inr (.inr (List.mem_append_left _ hDeleted))
  | unwatched hMutex =>
    obtain hOwner | hErased | hDeleted := hHeld
    · exact .inl hOwner
    · rw [hMutex] at hErased
      cases hErased
    · exact .inr (.inr hDeleted)
  | changed hFree hOwner _ =>
    obtain hOld | hErased | hDeleted := hHeld
    · exact .inl (by rwa [hOwner])
    · exact .inr (.inl hErased)
    · exact .inr (.inr hDeleted)

theorem Held.mono {b b' : Nat} (hHeld : s.Held b fd) (hLe : b ≤ b') : s.Held b' fd := by
  obtain ⟨id, hOwner, hId⟩ | hGone := hHeld
  · exact .inl ⟨id, hOwner, Nat.lt_of_lt_of_le hId hLe⟩
  · exact .inr hGone

theorem lookup_filter_self (entries : List (Int × SocketInfo)) (fd : Int) :
    (entries.filter (·.1 ≠ fd)).lookup fd = none := by
  rw [List.lookup_eq_none_iff]
  intro entry hEntry
  have hNe := of_decide_eq_true (List.mem_filter.mp hEntry).2
  exact bne_iff_ne.mpr hNe.symm

theorem Present.operated (hPresent : s.Present fd) (h : Operated s s') :
    s'.Present fd ∨ s'.socketsChanged = true ∧ fd ∉ s'.watcher := by
  obtain hOwner | hErased | hRecorded := hPresent
  · cases h with
    | @added other callable hFree hNone =>
      refine .inl (.inl ?_)
      rw [owner_cons]
      split
      · rfl
      · exact hOwner
    | @erased other hFree _ =>
      rcases eq_or_ne fd other with rfl | hNe
      · exact .inl (.inr (.inl rfl))
      · exact .inl (.inl (by rw [owner_filter_of_ne _ hNe]; exact hOwner))
    | changed hFree hSame _ => exact .inl (.inl (by rwa [hSame]))
    | _ => exact .inl (.inl hOwner)
  · cases h with
    | refused => exact .inl (.inr (.inl hErased))
    | recorded hMutex =>
      rw [hMutex] at hErased
      cases hErased
      exact .inl (.inr (.inr rfl))
    | added hMutex _ | watched hMutex _ | erased hMutex _ | unwatched hMutex | changed hMutex _ _ =>
      rw [hMutex] at hErased
      cases hErased
  · cases h with
    | refused => exact .inl (.inr (.inr hRecorded))
    | unwatched hMutex =>
      rw [hMutex] at hRecorded
      cases hRecorded
      exact .inr ⟨rfl, by simp⟩
    | added hMutex _ | watched hMutex _ | erased hMutex _ | recorded hMutex | changed hMutex _ _ =>
      rw [hMutex] at hRecorded
      cases hRecorded

theorem Operated.watcher (h : Operated s s') (hMem : fd ∈ s'.watcher) : fd ∈ s.watcher ∨ s.mutex = .adding fd := by
  cases h with
  | watched hMutex hWatcher =>
    obtain rfl | hOld := List.mem_cons.mp (hWatcher hMem)
    · exact .inr hMutex
    · exact .inl hOld
  | unwatched hMutex => exact .inl (List.mem_of_mem_filter hMem)
  | _ => exact .inl hMem

theorem Operated.unchanged (h : Operated s s') (hSame : s'.socketsChanged = false) : s.socketsChanged = false := by
  cases h with
  | watched _ _ | unwatched _ => cases hSame
  | changed _ _ hChanged => exact hChanged hSame
  | _ => exact hSame

/-- The numbers that `poll` may report are those of sockets, or of one that is about to leave. -/
structure Watched (s : State) : Prop where
  ids : ∀ fd id, s.owner fd = some id → id < s.added
  adding : ∀ fd, s.mutex = .adding fd → (s.owner fd).isSome
  watcher : ∀ fd ∈ s.watcher, s.Present fd
  unchanged : s.socketsChanged = false → ∀ fd ∈ s.ufds, s.Present fd

theorem Watched.ids_operated (hWatched : Watched s) (h : Operated s s') : ∀ fd id, s'.owner fd = some id → id < s'.added := by
  intro fd id hOwner
  cases h with
  | added hFree hNone =>
    rw [owner_cons] at hOwner
    split at hOwner
    · cases hOwner
      exact Nat.lt_succ_self _
    · exact Nat.lt_succ_of_lt (hWatched.ids fd id hOwner)
  | @erased other hFree _ =>
    rcases eq_or_ne fd other with rfl | hNe
    · rw [owner, find, lookup_filter_self] at hOwner
      cases hOwner
    · rw [owner_filter_of_ne _ hNe] at hOwner
      exact hWatched.ids fd id hOwner
  | changed hFree hSame _ => exact hWatched.ids fd id (hSame fd ▸ hOwner)
  | _ => exact hWatched.ids fd id hOwner

theorem Watched.adding_operated (hWatched : Watched s) (h : Operated s s') :
    ∀ fd, s'.mutex = .adding fd → (s'.owner fd).isSome := by
  intro fd hMutex
  cases h with
  | refused => exact hWatched.adding fd hMutex
  | added hFree hNone =>
    cases hMutex
    rw [owner_cons, if_pos rfl]
    rfl
  | changed hFree hSame _ =>
    rw [hFree] at hMutex
    cases hMutex
  | watched _ _ | erased _ _ | recorded _ | unwatched _ => cases hMutex

theorem Watched.operated (hWatched : Watched s) (h : Operated s s') : Watched s' := by
  refine ⟨hWatched.ids_operated h, hWatched.adding_operated h, fun fd hMem => ?_, fun hSame fd hMem => ?_⟩
  · have hPresent : s.Present fd := by
      obtain hOld | hAdding := h.watcher hMem
      · exact hWatched.watcher fd hOld
      · exact .inl (hWatched.adding fd hAdding)
    obtain hStays | ⟨_, hGone⟩ := hPresent.operated h
    · exact hStays
    · exact absurd hMem hGone
  · rw [h.keeps.2.2.2.1] at hMem
    obtain hStays | ⟨hChanged, _⟩ := (hWatched.unchanged (h.unchanged hSame) fd hMem).operated h
    · exact hStays
    · rw [hSame] at hChanged
      cases hChanged

theorem Watched.pass (h : s.Watched) (justDeleted : List Int) (phase : Phase) (polled : Nat) (calls : List Call) :
    { s with justDeleted := justDeleted, phase := phase, polled := polled, calls := calls }.Watched :=
  ⟨h.ids, h.adding, h.watcher, h.unchanged⟩

theorem Operated.justDeleted (h : Operated s s') (hMem : fd ∈ s.justDeleted) : fd ∈ s'.justDeleted := by
  cases h with
  | recorded _ => exact List.mem_append_left _ hMem
  | _ => exact hMem

theorem Operated.recordedDeleted (h : Operated s s') (hOld : ∀ fd, s.mutex = .recorded fd → fd ∈ s.justDeleted) :
    ∀ fd, s'.mutex = .recorded fd → fd ∈ s'.justDeleted := by
  intro fd hMutex
  cases h with
  | refused => exact hOld fd hMutex
  | recorded hErased =>
    cases hMutex
    exact List.mem_append_right _ List.mem_cons_self
  | changed hFree _ _ => exact hOld fd hMutex
  | added _ _ | watched _ _ | erased _ _ | unwatched _ => cases hMutex

end State

/-! ## A pass -/

def Phase.pending : Phase → List (Int × UInt32)
  | .results pending | .found _ _ _ pending | .calling pending => pending
  | .idle | .built => []

/-- Each number in the snapshot is held as of the time of the snapshot, and so is the owner that was looked up unless
the number was deleted since. -/
structure Inv (s : State) : Prop where
  watched : s.Watched
  recorded : s.phase ≠ .idle → ∀ fd, s.mutex = .recorded fd → fd ∈ s.justDeleted
  built : s.phase = .built → ∀ fd ∈ s.ufds, s.Held s.added fd
  pending : ∀ r ∈ s.phase.pending, s.Held s.polled r.1
  found : ∀ fd revents info pending, s.phase = .found fd revents info pending →
    info.id < s.polled ∨ fd ∈ s.justDeleted
  calls : ∀ call ∈ s.calls, hasError call.bits = true → call.id < call.polled

theorem hasError_of_masked {revents events : UInt32} (h : hasError (revents &&& (events ||| errorBits)) = true) :
    hasError revents = true := by
  rw [hasError, bne_iff_ne] at h ⊢
  intro hNone
  apply h
  rw [UInt32.and_assoc, UInt32.and_comm (events ||| errorBits), ← UInt32.and_assoc, hNone, UInt32.zero_and]

variable {s s' : State}

theorem inv_start : Inv State.start where
  watched :=
    ⟨fun _ _ h => (by cases h), fun _ h => (by cases h), fun _ h => absurd h List.not_mem_nil,
      fun _ _ h => absurd h List.not_mem_nil⟩
  recorded h := absurd rfl h
  built h := by cases h
  pending _ h := absurd h List.not_mem_nil
  found _ _ _ _ h := by cases h
  calls _ h := absurd h List.not_mem_nil

theorem Inv.operated (hInv : Inv s) (h : s.Operated s') : Inv s' := by
  obtain ⟨hPhase, hPolled, hCalls, hUfds, hAdded⟩ := h.keeps
  refine ⟨hInv.watched.operated h, ?_, ?_, ?_, ?_, hCalls ▸ hInv.calls⟩
  · rw [hPhase]
    exact fun hPass => h.recordedDeleted (hInv.recorded hPass)
  · rw [hPhase, hUfds]
    exact fun hBuilt fd hMem => ((hInv.built hBuilt fd hMem).operated h).mono hAdded
  · rw [hPhase, hPolled]
    exact fun r hMem => (hInv.pending r hMem).operated h
  · rw [hPhase, hPolled]
    exact fun fd revents info pending hFound => (hInv.found fd revents info pending hFound).imp_right h.justDeleted

theorem Inv.held (hInv : Inv s) {fd : Int} (hPass : s.phase ≠ .idle ∨ s.mutex = .free) (h : s.Present fd) :
    s.Held s.added fd := by
  obtain hOwner | hErased | hRecorded := h
  · obtain ⟨id, hId⟩ := Option.isSome_iff_exists.mp hOwner
    exact .inl ⟨id, hId, hInv.watched.ids fd id hId⟩
  · exact .inr (.inl hErased)
  · obtain hPass | hFree := hPass
    · exact .inr (.inr (hInv.recorded hPass fd hRecorded))
    · rw [hFree] at hRecorded
      cases hRecorded

theorem Inv.createNativePollset (hInv : Inv s) (hFree : s.mutex = .free) : Inv s.createNativePollset := by
  have hPresent : ∀ fd ∈ s.createNativePollset.ufds, s.Present fd := by
    intro fd hMem
    rw [State.createNativePollset] at hMem
    dsimp only at hMem
    split at hMem
    · left
      rw [State.owner, Option.isSome_map]
      exact State.mem_lookup hMem
    · rename_i hSame
      exact hInv.watched.unchanged (Bool.eq_false_iff.mpr hSame) fd hMem
  refine ⟨⟨hInv.watched.ids, hInv.watched.adding, hInv.watched.watcher, fun _ => hPresent⟩, fun _ fd hRecorded => ?_,
    fun _ fd hMem => hInv.held (.inr hFree) (hPresent fd hMem), fun r hMem => absurd hMem List.not_mem_nil,
    fun _ _ _ _ hFound => (by cases hFound), hInv.calls⟩
  change s.mutex = _ at hRecorded
  rw [hFree] at hRecorded
  cases hRecorded

theorem Inv.results (hInv : Inv s) (hPass : s.phase ≠ .idle) {pending : List (Int × UInt32)}
    (hPending : ∀ r ∈ pending, s.Held s.polled r.1) : Inv { s with phase := .results pending } :=
  ⟨hInv.watched.pass _ _ _ _, fun _ => hInv.recorded hPass, fun hBuilt => (by cases hBuilt), hPending,
    fun _ _ _ _ hFound => (by cases hFound), hInv.calls⟩

theorem Inv.polled (hInv : Inv s) (hBuilt : s.phase = .built) {reported : List (Int × UInt32)}
    (hReported : ∀ r ∈ reported, r.1 ∈ s.watcher ∨ r.1 ∈ s.ufds) :
    Inv { s with phase := .results reported, polled := s.added } := by
  have hPass : s.phase ≠ .idle := by
    rw [hBuilt]
    exact Phase.noConfusion
  refine ⟨hInv.watched.pass _ _ _ _, fun _ => hInv.recorded hPass, fun hBuilt => (by cases hBuilt), fun r hMem => ?_,
    fun _ _ _ _ hFound => (by cases hFound), hInv.calls⟩
  obtain hWatcher | hUfds := hReported r hMem
  · exact hInv.held (.inl hPass) (hInv.watched.watcher r.1 hWatcher)
  · exact hInv.built hBuilt r.1 hUfds

theorem Inv.lookedUp (hInv : Inv s) {fd : Int} {revents : UInt32} {pending : List (Int × UInt32)}
    (hPhase : s.phase = .results ((fd, revents) :: pending)) (hFree : s.mutex = .free) {info : SocketInfo}
    (hFind : s.find fd = some info) : Inv { s with phase := .found fd revents info pending } := by
  have hPass : s.phase ≠ .idle := by
    rw [hPhase]
    exact Phase.noConfusion
  have hPending := hInv.pending
  rw [hPhase] at hPending
  refine ⟨hInv.watched.pass _ _ _ _, fun _ => hInv.recorded hPass, fun hBuilt => (by cases hBuilt),
    fun r hMem => hPending r (List.mem_cons_of_mem _ hMem), fun _ _ _ _ hFound => ?_, hInv.calls⟩
  cases hFound
  obtain ⟨id, hOwner, hId⟩ | hErased | hDeleted := hPending (fd, revents) List.mem_cons_self
  · rw [State.owner, hFind] at hOwner
    cases hOwner
    exact .inl hId
  · change s.mutex = _ at hErased
    rw [hFree] at hErased
    cases hErased
  · exact .inr hDeleted

theorem Inv.check (hInv : Inv s) {fd : Int} {revents : UInt32} {info : SocketInfo} {pending : List (Int × UInt32)}
    (hPhase : s.phase = .found fd revents info pending) : Inv (s.check fd revents info pending) := by
  have hPass : s.phase ≠ .idle := by
    rw [hPhase]
    exact Phase.noConfusion
  have hPending := hInv.pending
  rw [hPhase] at hPending
  rw [State.check]
  split
  · rename_i hCall
    refine ⟨hInv.watched.pass _ _ _ _, fun _ => hInv.recorded hPass, fun hBuilt => (by cases hBuilt), hPending,
      fun _ _ _ _ hFound => (by cases hFound), fun call hMem hError => ?_⟩
    obtain rfl | hOld := List.mem_cons.mp hMem
    · -- an error is passed on only if the number is not among the deleted
      refine (hInv.found fd revents info pending hPhase).resolve_right fun hDeleted => ?_
      exact hCall.2.2 ⟨hasError_of_masked hError, hDeleted⟩
    · exact hInv.calls call hOld hError
  · exact hInv.results hPass hPending

theorem Inv.step (hInv : Inv s) {label : Label} (h : s.step label = some s') : Inv s' := by
  cases label with
  | op o => exact hInv.operated (State.operate_cases h)
  | createNativePollset =>
    obtain ⟨⟨_, hFree⟩, h⟩ := Option.ite_none_right_eq_some.mp h
    cases h
    exact hInv.createNativePollset hFree
  | poll reported =>
    obtain ⟨⟨hBuilt, hReported⟩, h⟩ := Option.ite_none_right_eq_some.mp h
    cases h
    exact hInv.polled hBuilt hReported
  | pollFailed =>
    obtain ⟨hBuilt, h⟩ := Option.ite_none_right_eq_some.mp h
    cases h
    exact hInv.polled hBuilt fun r hMem => absurd hMem List.not_mem_nil
  | lookup =>
    rw [State.step] at h
    split at h
    · rename_i fd revents pending hPhase
      have hPass : s.phase ≠ .idle := by
        rw [hPhase]
        exact Phase.noConfusion
      have hPending := hInv.pending
      rw [hPhase] at hPending
      have hRest : ∀ r ∈ pending, s.Held s.polled r.1 := fun r hMem => hPending r (List.mem_cons_of_mem _ hMem)
      split at h
      · cases h
        exact hInv.results hPass hRest
      · split at h
        · rename_i hFree
          cases hFind : s.find fd with
          | none =>
            rw [hFind] at h
            cases h
            exact hInv.results hPass hRest
          | some info =>
            rw [hFind] at h
            cases h
            exact hInv.lookedUp hPhase hFree hFind
        · cases h
    · cases h
  | check =>
    rw [State.step] at h
    split at h
    · rename_i hPhase
      cases h
      exact hInv.check hPhase
    · cases h
  | returned =>
    rw [State.step] at h
    split at h
    · rename_i pending hPhase
      cases h
      have hPending := hInv.pending
      rw [hPhase] at hPending
      exact hInv.results (by rw [hPhase]; exact Phase.noConfusion) hPending
    · cases h
  | clear =>
    obtain ⟨-, rfl⟩ := of_guard h
    exact ⟨hInv.watched.pass _ _ _ _, fun hPass => absurd rfl hPass, fun hBuilt => (by cases hBuilt),
      fun r hMem => absurd hMem List.not_mem_nil, fun _ _ _ _ hFound => (by cases hFound), hInv.calls⟩

theorem inv_of_reachable (h : machine.Reachable s) : Inv s := by
  induction h with
  | init hInit =>
    cases hInit
    exact inv_start
  | step _ _ hStep ih => exact ih.step hStep

/-- An update function that is called with an error was added before `poll` reported it. -/
theorem error_reported_after_added (hReach : machine.Reachable s) {call : Call} (hCall : call ∈ s.calls)
    (hError : hasError call.bits = true) : call.id < call.polled :=
  (inv_of_reachable hReach).calls call hCall hError

/-- Two passes: an error for a number that has a new owner is left out, and reported again it is passed on. -/
def reuse : List Label :=
  [.op (.addSocket 5 true), .op (.addToWatcher true), .createNativePollset, .poll [(5, 8)], .op (.delSocket 5),
    .op .pushDeleted, .op .delFromWatcher, .op (.addSocket 5 true), .op (.addToWatcher true), .lookup, .check, .clear,
    .createNativePollset, .poll [(5, 8)], .lookup, .check]

def reused : State where
  socketInfo := [(5, ⟨1, 0, true⟩)]
  mutex := .free
  socketsChanged := false
  justDeleted := []
  ufds := [5]
  watcher := [5]
  phase := .calling []
  added := 2
  polled := 2
  calls := [⟨1, 8, 2⟩]

theorem run_reuse : machine.run State.start reuse = some reused := by
  decide +kernel

theorem error_reported_after_added_reused : (⟨1, 8, 2⟩ : Call).id < (⟨1, 8, 2⟩ : Call).polled :=
  error_reported_after_added (Machine.Reachable.run (.init rfl) run_reuse)
    List.mem_cons_self (by decide)

end XcRos.Libros.PollSet
