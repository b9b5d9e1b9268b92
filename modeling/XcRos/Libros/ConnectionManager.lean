import XcRos.Foundation.Machine
import XcRos.Foundation.Update

/-! # Dropped connections

`ConnectionManager` keeps its connections in a set, hears of each drop through a listener, and takes what was dropped
out of the set later, in the polling thread. The set, the list of the dropped and each connection have a mutex of their
own; `addConnection` holds that of the set while it adds its listener, and the drop signal is sent without any.
-/

namespace XcRos.Libros.ConnectionManager

open XcRos.Foundation

/-- How far `Connection::drop` is: `dropped_` is set, or the signal was sent and has some listeners of the manager left
to call. -/
inductive Drop where
  | flagged (c : Nat)
  | signalling (c left : Nat)
deriving DecidableEq, Repr

/-- What a thread is at. A removal has, beside the list that it took, whether it started while nothing else was in
progress and what was dropped then. -/
inductive Call where
  | idle
  | adding (c : Nat)
  | dropping (drop : Drop)
  | clearing (rest : List Nat)
  | clearingDrop (drop : Drop) (rest : List Nat)
  | removing (localDropped : List Nat) (alone : Bool) (before : Nat → Bool)

/-- Kept beside: whether the drop signal of a connection was sent, and which threads are at work. -/
structure State where
  connections : List Nat
  droppedConnections : List Nat
  dropped : Nat → Bool
  listeners : Nat → Nat
  emitted : Nat → Bool
  connectionsMutex : Option Nat
  calls : Nat → Call
  active : List Nat

inductive Label where
  | addConnection (thread c : Nat)
  | addDropListener (thread : Nat)
  | drop (thread c : Nat)
  | emit (thread : Nat)
  | onConnectionDropped (thread : Nat)
  | endDrop (thread : Nat)
  | clear (thread : Nat)
  | clearNext (thread : Nat)
  | clearDropped (thread : Nat)
  | removeDroppedConnections (thread : Nat)
  | erase (thread : Nat)
deriving DecidableEq, Repr

namespace State

variable (s : State)

def start : State where
  connections := []
  droppedConnections := []
  dropped _ := false
  listeners _ := 0
  emitted _ := false
  connectionsMutex := none
  calls _ := .idle
  active := []

def begin (thread : Nat) (call : Call) : State :=
  { s with calls := Function.update s.calls thread call, active := thread :: s.active }

def goto (thread : Nat) (call : Call) : State := { s with calls := Function.update s.calls thread call }

def finish (thread : Nat) : State :=
  { s with calls := Function.update s.calls thread .idle, active := s.active.filter (· ≠ thread) }

/-- The call of a thread that is dropping a connection, and how it goes on. -/
def dropOf (thread : Nat) : Option (Drop × (Drop → Call)) :=
  match s.calls thread with
  | .dropping drop => some (drop, .dropping)
  | .clearingDrop drop rest => some (drop, (.clearingDrop · rest))
  | _ => none

def step (s : State) : Label → Option State
  | .addConnection thread c =>
    match s.calls thread, s.connectionsMutex with
    | .idle, none =>
      some { s.begin thread (.adding c) with
        connections := if c ∈ s.connections then s.connections else c :: s.connections
        connectionsMutex := some thread }
    | _, _ => none
  | .addDropListener thread =>
    match s.calls thread with
    | .adding c =>
      some { s.finish thread with
        listeners := Function.update s.listeners c (s.listeners c + 1)
        connectionsMutex := none }
    | _ => none
  | .drop thread c =>
    match s.calls thread with
    | .idle =>
      if s.dropped c then some s
      else some { s.begin thread (.dropping (.flagged c)) with dropped := Function.update s.dropped c true }
    | _ => none
  | .emit thread =>
    match s.dropOf thread with
    | some (.flagged c, call) =>
      some { s.goto thread (call (.signalling c (s.listeners c))) with emitted := Function.update s.emitted c true }
    | _ => none
  | .onConnectionDropped thread =>
    match s.dropOf thread with
    | some (.signalling c (left + 1), call) =>
      some { s.goto thread (call (.signalling c left)) with droppedConnections := s.droppedConnections ++ [c] }
    | _ => none
  | .endDrop thread =>
    match s.calls thread with
    | .dropping (.signalling _ 0) => some (s.finish thread)
    | .clearingDrop (.signalling _ 0) rest => some (s.goto thread (.clearing rest))
    | _ => none
  | .clear thread =>
    match s.calls thread, s.connectionsMutex with
    | .idle, none => some { s.begin thread (.clearing s.connections) with connections := [] }
    | _, _ => none
  | .clearNext thread =>
    match s.calls thread with
    | .clearing (c :: rest) =>
      if s.dropped c then some (s.goto thread (.clearing rest))
      else
        some { s.goto thread (.clearingDrop (.flagged c) rest) with dropped := Function.update s.dropped c true }
    | _ => none
  | .clearDropped thread =>
    match s.calls thread with
    | .clearing [] => some { s.finish thread with droppedConnections := [] }
    | _ => none
  | .removeDroppedConnections thread =>
    match s.calls thread with
    | .idle =>
      some { s.begin thread (.removing s.droppedConnections s.active.isEmpty s.dropped) with droppedConnections := [] }
    | _ => none
  | .erase thread =>
    match s.calls thread, s.connectionsMutex with
    | .removing localDropped _ _, none =>
      some { s.finish thread with connections := s.connections.filter (· ∉ localDropped) }
    | _, _ => none

end State

def machine : Machine State Label := ⟨(· = State.start), State.step⟩

/-- The listener of a connection is added before its drop signal is sent, and `clear` forgets no dropped connection that
is in the set. -/
def Permitted (s : State) : Label → Prop
  | .addDropListener thread => ∀ c, s.calls thread = .adding c → s.emitted c = false
  | .clearDropped _ => ∀ c ∈ s.droppedConnections, c ∉ s.connections
  | _ => True

/-! ## What is owed -/

def Drop.Owes (c : Nat) : Drop → Prop
  | .flagged c' => c' = c
  | .signalling c' left => c' = c ∧ 0 < left

/-- A thread that will put the connection into the list of the dropped, or take it out of the set. -/
def Call.Owes (c : Nat) : Call → Prop
  | .adding c' => c' = c
  | .dropping drop | .clearingDrop drop _ => drop.Owes c
  | .removing localDropped _ _ => c ∈ localDropped
  | .idle | .clearing _ => False

/-- A thread between `dropped_` and the signal. -/
def Call.Flagged (c : Nat) : Call → Prop
  | .dropping (.flagged c') | .clearingDrop (.flagged c') _ => c' = c
  | _ => False

/-- A dropped connection in the set is in the list of the dropped, or a thread will see to it. -/
structure Inv (s : State) : Prop where
  owed : ∀ c ∈ s.connections, s.dropped c = true → c ∈ s.droppedConnections ∨ ∃ t, (s.calls t).Owes c
  listened : ∀ c ∈ s.connections, 0 < s.listeners c ∨ ∃ t, s.calls t = .adding c
  flagged : ∀ c, s.dropped c = true → s.emitted c = false → ∃ t, (s.calls t).Flagged c
  mutex : ∀ t c, s.calls t = .adding c → s.connectionsMutex = some t
  active : ∀ t, s.calls t ≠ .idle → t ∈ s.active
  alone : ∀ t localDropped before, s.calls t = .removing localDropped true before → ∀ c, before c = true →
    s.emitted c = true ∧ (c ∈ s.connections → c ∈ localDropped ∨ ∃ t, s.calls t = .adding c)

namespace Inv

variable {s : State} {thread c : Nat} {rest : List Nat}

theorem active_begin (hInv : Inv s) (call : Call) :
    ∀ t, Function.update s.calls thread call t ≠ .idle → t ∈ thread :: s.active := by
  intro t hCall
  rcases eq_or_ne t thread with rfl | hNe
  · exact List.mem_cons_self
  · rw [Function.update_of_ne hNe] at hCall
    exact List.mem_cons_of_mem _ (hInv.active t hCall)

theorem active_goto (hInv : Inv s) (hOld : s.calls thread ≠ .idle) (call : Call) :
    ∀ t, Function.update s.calls thread call t ≠ .idle → t ∈ s.active := by
  intro t hCall
  rcases eq_or_ne t thread with rfl | hNe
  · exact hInv.active t hOld
  · rw [Function.update_of_ne hNe] at hCall
    exact hInv.active t hCall

theorem active_finish (hInv : Inv s) :
    ∀ t, Function.update s.calls thread .idle t ≠ .idle → t ∈ s.active.filter (· ≠ thread) := by
  intro t hCall
  rcases eq_or_ne t thread with rfl | hNe
  · rw [Function.update_self] at hCall
    exact absurd rfl hCall
  · rw [Function.update_of_ne hNe] at hCall
    exact List.mem_filter.mpr ⟨hInv.active t hCall, decide_eq_true hNe⟩

theorem call_of_update {call new : Call} (hNew : new ≠ call) {t : Nat} (h : Function.update s.calls thread new t = call) :
    t ≠ thread ∧ s.calls t = call := by
  rcases eq_or_ne t thread with rfl | hNe
  · rw [Function.update_self] at h
    exact absurd h hNew
  · rw [Function.update_of_ne hNe] at h
    exact ⟨hNe, h⟩

theorem not_adding (hInv : Inv s) (hMutex : s.connectionsMutex = none) : ¬ ∃ t, s.calls t = .adding c := by
  rintro ⟨t, ht⟩
  rw [hInv.mutex t c ht] at hMutex
  cases hMutex

theorem start : Inv State.start where
  owed _ h := absurd h List.not_mem_nil
  listened _ h := absurd h List.not_mem_nil
  flagged _ h := by cases h
  mutex _ _ h := by cases h
  active _ h := absurd rfl h
  alone _ _ _ h := by cases h

theorem addConnection (hInv : Inv s) (hOld : s.calls thread = .idle) (hMutex : s.connectionsMutex = none) :
    Inv { s with
      connections := if c ∈ s.connections then s.connections else c :: s.connections
      connectionsMutex := some thread
      calls := Function.update s.calls thread (.adding c)
      active := thread :: s.active } := by
  have hMem : ∀ c', c' ∈ (if c ∈ s.connections then s.connections else c :: s.connections) →
      c' = c ∨ c' ∈ s.connections := by
    intro c' hMem
    split at hMem
    · exact .inr hMem
    · exact List.mem_cons.mp hMem
  have hAdding : ∃ t, Function.update s.calls thread (.adding c) t = .adding c := ⟨thread, Function.update_self ..⟩
  refine ⟨?_, ?_, ?_, ?_, hInv.active_begin _, ?_⟩ <;> dsimp only
  · intro c' hc' hDropped
    obtain rfl | hc' := hMem c' hc'
    · exact .inr ⟨thread, by rw [Function.update_self]; rfl⟩
    · refine (hInv.owed c' hc' hDropped).imp_right fun h => exists_update_of h ?_
      rw [hOld]
      exact False.elim
  · intro c' hc'
    obtain rfl | hc' := hMem c' hc'
    · exact .inr hAdding
    · exact (hInv.listened c' hc').imp_right fun h => absurd h (hInv.not_adding hMutex)
  · intro c' hDropped hEmitted
    refine exists_update_of (hInv.flagged c' hDropped hEmitted) ?_
    rw [hOld]
    exact False.elim
  · intro t c' hCall
    rcases eq_or_ne t thread with rfl | hNe
    · rfl
    · rw [Function.update_of_ne hNe] at hCall
      exact absurd ⟨t, hCall⟩ (hInv.not_adding hMutex)
  · intro t localDropped before hCall c' hBefore
    obtain ⟨_, hCall⟩ := call_of_update Call.noConfusion hCall
    obtain ⟨hEmitted, hConnections⟩ := hInv.alone t localDropped before hCall c' hBefore
    refine ⟨hEmitted, fun hc' => ?_⟩
    obtain rfl | hc' := hMem c' hc'
    · exact .inr hAdding
    · exact (hConnections hc').imp_right fun h => absurd h (hInv.not_adding hMutex)

theorem Flagged.owes {call : Call} (h : call.Flagged c) : call.Owes c := by
  cases call with
  | dropping drop | clearingDrop drop _ =>
    cases drop with
    | flagged _ => exact h
    | signalling _ _ => exact h.elim
  | _ => exact h.elim

theorem addDropListener (hInv : Inv s) (hOld : s.calls thread = .adding c) (hEmitted : s.emitted c = false) :
    Inv { s with
      listeners := Function.update s.listeners c (s.listeners c + 1)
      connectionsMutex := none
      calls := Function.update s.calls thread .idle
      active := s.active.filter (· ≠ thread) } := by
  have hOther : ∀ t c', t ≠ thread → s.calls t ≠ .adding c' := by
    intro t c' hNe hCall
    have hSame := (hInv.mutex t c' hCall).symm.trans (hInv.mutex thread c hOld)
    exact hNe (Option.some.inj hSame)
  have hAdding : ∀ c', c' ≠ c → ¬ ∃ t, s.calls t = .adding c' := by
    rintro c' hNe ⟨t, ht⟩
    rcases eq_or_ne t thread with rfl | hThread
    · rw [hOld] at ht
      cases ht
      exact hNe rfl
    · exact hOther t c' hThread ht
  have hFlagged : ∀ c', s.dropped c' = true → s.emitted c' = false →
      ∃ t, (Function.update s.calls thread .idle t).Flagged c' := by
    intro c' hDropped hEmitted
    refine exists_update_of (hInv.flagged c' hDropped hEmitted) ?_
    rw [hOld]
    exact False.elim
  refine ⟨?_, ?_, hFlagged, ?_, hInv.active_finish, ?_⟩ <;> dsimp only
  · intro c' hc' hDropped
    rcases eq_or_ne c' c with rfl | hNe
    · obtain ⟨t, ht⟩ := hFlagged c' hDropped hEmitted
      exact .inr ⟨t, Flagged.owes ht⟩
    · refine (hInv.owed c' hc' hDropped).imp_right fun h => exists_update_of h ?_
      rw [hOld]
      exact fun hEq => absurd hEq.symm hNe
  · intro c' hc'
    left
    rcases eq_or_ne c' c with rfl | hNe
    · rw [Function.update_self]
      exact Nat.succ_pos _
    · rw [Function.update_of_ne hNe]
      exact (hInv.listened c' hc').resolve_right (hAdding c' hNe)
  · intro t c' hCall
    obtain ⟨hNe, hCall⟩ := call_of_update Call.noConfusion hCall
    exact absurd hCall (hOther t c' hNe)
  · intro t localDropped before hCall c' hBefore
    obtain ⟨_, hCall⟩ := call_of_update Call.noConfusion hCall
    obtain ⟨hGone, hConnections⟩ := hInv.alone t localDropped before hCall c' hBefore
    refine ⟨hGone, fun hc' => (hConnections hc').imp_right fun h => ?_⟩
    rcases eq_or_ne c' c with rfl | hNe
    · rw [hGone] at hEmitted
      cases hEmitted
    · exact absurd h (hAdding c' hNe)

theorem move (hInv : Inv s) {s' : State} {new : Call} (hCalls : s'.calls = Function.update s.calls thread new)
    (hOld : ∀ c, s.calls thread ≠ .adding c) (hNew : ∀ c, new ≠ .adding c)
    (hConnections : ∀ c ∈ s'.connections, c ∈ s.connections) (hListeners : s'.listeners = s.listeners)
    (hMutex : s'.connectionsMutex = s.connectionsMutex) (hEmitted : ∀ c, s.emitted c = true → s'.emitted c = true)
    (hActive : ∀ t, s'.calls t ≠ .idle → t ∈ s'.active)
    (hOwed : ∀ c ∈ s'.connections, s'.dropped c = true → c ∈ s'.droppedConnections ∨ ∃ t, (s'.calls t).Owes c)
    (hFlagged : ∀ c, s'.dropped c = true → s'.emitted c = false → ∃ t, (s'.calls t).Flagged c)
    (hAlone : ∀ localDropped before, new = .removing localDropped true before → ∀ c, before c = true →
      s'.emitted c = true ∧ (c ∈ s'.connections → c ∈ localDropped)) : Inv s' := by
  have hAdding : ∀ c, (∃ t, s.calls t = .adding c) → ∃ t, s'.calls t = .adding c := by
    intro c h
    rw [hCalls]
    exact exists_update_of (P := (· = Call.adding c)) h fun hCall => absurd hCall (hOld c)
  refine ⟨hOwed, fun c hc => ?_, hFlagged, fun t c hCall => ?_, hActive, fun t localDropped before hCall c hBefore => ?_⟩
  · rw [hListeners]
    exact (hInv.listened c (hConnections c hc)).imp_right (hAdding c)
  · rw [hCalls] at hCall
    rw [hMutex]
    exact hInv.mutex t c (call_of_update (hNew c) hCall).2
  · rw [hCalls] at hCall
    rcases eq_or_ne t thread with rfl | hNe
    · rw [Function.update_self] at hCall
      obtain ⟨hGone, hLocal⟩ := hAlone localDropped before hCall c hBefore
      exact ⟨hGone, fun hc => .inl (hLocal hc)⟩
    · rw [Function.update_of_ne hNe] at hCall
      obtain ⟨hGone, hLocal⟩ := hInv.alone t localDropped before hCall c hBefore
      exact ⟨hEmitted c hGone, fun hc => (hLocal (hConnections c hc)).imp_right (hAdding c)⟩

theorem owed_update (hInv : Inv s) {new : Call} (hKeeps : ∀ c, (s.calls thread).Owes c → new.Owes c) :
    ∀ c ∈ s.connections, s.dropped c = true →
      c ∈ s.droppedConnections ∨ ∃ t, (Function.update s.calls thread new t).Owes c :=
  fun c hc hDropped => (hInv.owed c hc hDropped).imp_right fun h => exists_update_of h (hKeeps c)

theorem flagged_update (hInv : Inv s) {new : Call} (hKeeps : ∀ c, (s.calls thread).Flagged c → new.Flagged c) :
    ∀ c, s.dropped c = true → s.emitted c = false → ∃ t, (Function.update s.calls thread new t).Flagged c :=
  fun c hDropped hEmitted => exists_update_of (hInv.flagged c hDropped hEmitted) (hKeeps c)

theorem flag (hInv : Inv s) {new : Call} {active : List Nat} (hOld : ∀ c, s.calls thread ≠ .adding c)
    (hNew : ∀ c, new ≠ .adding c) (hRemoving : ∀ localDropped before, new ≠ .removing localDropped true before)
    (hOwes : ∀ c, ¬ (s.calls thread).Owes c) (hFlagged : new.Flagged c)
    (hActive : ∀ t, Function.update s.calls thread new t ≠ .idle → t ∈ active) :
    Inv { s with
      dropped := Function.update s.dropped c true
      calls := Function.update s.calls thread new
      active := active } := by
  have hOthers : ∀ c', c' ≠ c → Function.update s.dropped c true c' = true → s.dropped c' = true := by
    intro c' hNe h
    rwa [Function.update_of_ne hNe] at h
  refine hInv.move rfl hOld hNew (fun _ => id) rfl rfl (fun _ => id) hActive ?_ ?_ fun _ _ h => absurd h (hRemoving _ _)
  · intro c' hc' hDropped
    rcases eq_or_ne c' c with rfl | hNe
    · exact .inr (exists_update_of_self (Flagged.owes hFlagged))
    · exact hInv.owed_update (fun c h => absurd h (hOwes c)) c' hc' (hOthers c' hNe hDropped)
  · intro c' hDropped hEmitted
    rcases eq_or_ne c' c with rfl | hNe
    · exact exists_update_of_self hFlagged
    · exact hInv.flagged_update (fun c h => absurd (Flagged.owes h) (hOwes c)) c' (hOthers c' hNe hDropped) hEmitted

structure IsDrop (call : Drop → Call) : Prop where
  not_idle : ∀ drop, call drop ≠ .idle
  not_adding : ∀ drop c, call drop ≠ .adding c
  not_removing : ∀ drop localDropped before, call drop ≠ .removing localDropped true before
  owes : ∀ drop c, (call drop).Owes c ↔ drop.Owes c
  flagged : ∀ drop c, (call drop).Flagged c ↔ drop = .flagged c

theorem isDrop_dropping : IsDrop .dropping where
  not_idle _ h := by cases h
  not_adding _ _ h := by cases h
  not_removing _ _ _ h := by cases h
  owes _ _ := Iff.rfl
  flagged drop c := by
    cases drop with
    | flagged c' => exact Drop.flagged.injEq c' c ▸ Iff.rfl
    | signalling c' left => exact ⟨False.elim, fun h => by cases h⟩

theorem isDrop_clearingDrop (rest : List Nat) : IsDrop (.clearingDrop · rest) where
  not_idle _ h := by cases h
  not_adding _ _ h := by cases h
  not_removing _ _ _ h := by cases h
  owes _ _ := Iff.rfl
  flagged drop c := by
    rw [← isDrop_dropping.flagged drop c]
    cases drop with
    | flagged c' => exact Iff.rfl
    | signalling c' left => exact Iff.rfl

theorem isDrop_of_dropOf {drop : Drop} {call : Drop → Call} (h : s.dropOf thread = some (drop, call)) :
    s.calls thread = call drop ∧ IsDrop call := by
  unfold State.dropOf at h
  split at h
  · rename_i hCall
    cases h
    exact ⟨hCall, isDrop_dropping⟩
  · rename_i rest hCall
    cases h
    exact ⟨hCall, isDrop_clearingDrop rest⟩
  · cases h

theorem emit {call : Drop → Call} (hInv : Inv s) (hOld : s.calls thread = call (.flagged c)) (hDrop : IsDrop call) :
    Inv { s with
      emitted := Function.update s.emitted c true
      calls := Function.update s.calls thread (call (.signalling c (s.listeners c))) } := by
  have hThread : ∀ c, s.calls thread ≠ .adding c := hOld ▸ hDrop.not_adding _
  have hEmitted : ∀ c', s.emitted c' = true → Function.update s.emitted c true c' = true := by
    intro c' h
    rcases eq_or_ne c' c with rfl | hNe
    · exact Function.update_self ..
    · rwa [Function.update_of_ne hNe]
  refine hInv.move rfl hThread (hDrop.not_adding _) (fun _ => id) rfl rfl hEmitted
    (hInv.active_goto (hOld ▸ hDrop.not_idle _) _) ?_ ?_ fun _ _ h => absurd h (hDrop.not_removing _ _ _)
  · intro c' hc' hDropped
    rcases eq_or_ne c' c with rfl | hNe
    · right
      rcases hInv.listened c' hc' with hListeners | ⟨t, ht⟩
      · exact exists_update_of_self ((hDrop.owes _ _).mpr ⟨rfl, hListeners⟩)
      · have hNe : t ≠ thread := by
          rintro rfl
          exact hThread c' ht
        refine ⟨t, ?_⟩
        dsimp only
        rw [Function.update_of_ne hNe, ht]
        rfl
    · refine (hInv.owed c' hc' hDropped).imp_right fun h => exists_update_of h ?_
      rw [hOld, hDrop.owes]
      exact fun hEq => absurd hEq.symm hNe
  · intro c' hDropped hNot
    dsimp only at hNot
    have hNe : c' ≠ c := by
      rintro rfl
      rw [Function.update_self] at hNot
      cases hNot
    rw [Function.update_of_ne hNe] at hNot
    refine exists_update_of (hInv.flagged c' hDropped hNot) ?_
    rw [hOld, hDrop.flagged]
    rintro ⟨⟩
    exact absurd rfl hNe

theorem onConnectionDropped {call : Drop → Call} {left : Nat} (hInv : Inv s)
    (hOld : s.calls thread = call (.signalling c (left + 1))) (hDrop : IsDrop call) :
    Inv { s with
      droppedConnections := s.droppedConnections ++ [c]
      calls := Function.update s.calls thread (call (.signalling c left)) } := by
  refine hInv.move rfl (hOld ▸ hDrop.not_adding _) (hDrop.not_adding _) (fun _ => id) rfl rfl (fun _ => id)
    (hInv.active_goto (hOld ▸ hDrop.not_idle _) _) ?_ ?_ fun _ _ h => absurd h (hDrop.not_removing _ _ _)
  · intro c' hc' hDropped
    rcases eq_or_ne c' c with rfl | hNe
    · exact .inl (List.mem_append_right _ List.mem_cons_self)
    · refine (hInv.owed c' hc' hDropped).imp (List.mem_append_left _) fun h => exists_update_of h ?_
      rw [hOld, hDrop.owes]
      exact fun hOwes => absurd hOwes.1.symm hNe
  · refine hInv.flagged_update fun c' h => ?_
    rw [hOld, hDrop.flagged] at h
    cases h

theorem pass (hInv : Inv s) {new : Call} {active : List Nat} (hOld : ∀ c, s.calls thread ≠ .adding c)
    (hNew : ∀ c, new ≠ .adding c) (hRemoving : ∀ localDropped before, new ≠ .removing localDropped true before)
    (hOwes : ∀ c, ¬ (s.calls thread).Owes c)
    (hActive : ∀ t, Function.update s.calls thread new t ≠ .idle → t ∈ active) :
    Inv { s with
      calls := Function.update s.calls thread new
      active := active } :=
  hInv.move rfl hOld hNew (fun _ => id) rfl rfl (fun _ => id) hActive
    (hInv.owed_update fun c h => absurd h (hOwes c))
    (hInv.flagged_update fun c h => absurd (Flagged.owes h) (hOwes c))
    fun _ _ h => absurd h (hRemoving _ _)

theorem clear (hInv : Inv s) (hOld : s.calls thread = .idle) :
    Inv { s with
      connections := []
      calls := Function.update s.calls thread (.clearing s.connections)
      active := thread :: s.active } := by
  refine hInv.move rfl (fun c h => ?_) (fun _ h => ?_) (fun _ h => absurd h List.not_mem_nil) rfl rfl (fun _ => id)
    (hInv.active_begin _) (fun _ h => absurd h List.not_mem_nil) (hInv.flagged_update fun c h => ?_) fun _ _ h => ?_
  · rw [hOld] at h
    cases h
  · cases h
  · rw [hOld] at h
    exact h.elim
  · cases h

theorem clearDropped (hInv : Inv s) (hOld : s.calls thread = .clearing [])
    (hPermitted : ∀ c ∈ s.droppedConnections, c ∉ s.connections) :
    Inv { s with
      droppedConnections := []
      calls := Function.update s.calls thread .idle
      active := s.active.filter (· ≠ thread) } := by
  refine hInv.move rfl (fun c h => ?_) (fun _ h => ?_) (fun _ => id) rfl rfl (fun _ => id) hInv.active_finish
    (fun c hc hDropped => ?_) (hInv.flagged_update fun c h => ?_) fun _ _ h => ?_
  · rw [hOld] at h
    cases h
  · cases h
  · right
    rcases hInv.owed c hc hDropped with h | h
    · exact absurd hc (hPermitted c h)
    · refine exists_update_of h ?_
      rw [hOld]
      exact False.elim
  · rw [hOld] at h
    exact h.elim
  · cases h

theorem removeDroppedConnections (hInv : Inv s) (hOld : s.calls thread = .idle) :
    Inv { s with
      droppedConnections := []
      calls := Function.update s.calls thread (.removing s.droppedConnections s.active.isEmpty s.dropped)
      active := thread :: s.active } := by
  have hThread : ∀ c, ¬ (s.calls thread).Owes c := by
    rw [hOld]
    exact fun _ => id
  refine hInv.move rfl (fun c h => ?_) (fun _ h => ?_) (fun _ => id) rfl rfl (fun _ => id) (hInv.active_begin _)
    (fun c hc hDropped => ?_) (hInv.flagged_update fun c h => absurd (Flagged.owes h) (hThread c)) fun _ _ h => ?_
  · rw [hOld] at h
    cases h
  · cases h
  · right
    rcases hInv.owed c hc hDropped with h | h
    · exact exists_update_of_self h
    · exact exists_update_of h fun h => absurd h (hThread c)
  · have hAlone : s.active = [] := List.isEmpty_iff.mp (Call.removing.inj h).2.1
    have hIdle : ∀ t, s.calls t = .idle := by
      intro t
      by_contra hNe
      have hMem := hInv.active t hNe
      rw [hAlone] at hMem
      cases hMem
    obtain ⟨rfl, -, rfl⟩ := Call.removing.inj h
    intro c hDropped
    constructor
    · by_contra hNot
      obtain ⟨t, ht⟩ := hInv.flagged c hDropped (Bool.eq_false_iff.mpr hNot)
      rw [hIdle t] at ht
      exact ht
    · intro hc
      refine (hInv.owed c hc hDropped).resolve_right ?_
      rintro ⟨t, ht⟩
      rw [hIdle t] at ht
      exact ht

theorem erase {localDropped : List Nat} {alone : Bool} {before : Nat → Bool} (hInv : Inv s)
    (hOld : s.calls thread = .removing localDropped alone before) :
    Inv { s with
      connections := s.connections.filter (· ∉ localDropped)
      calls := Function.update s.calls thread .idle
      active := s.active.filter (· ≠ thread) } := by
  refine hInv.move rfl (fun c h => ?_) (fun _ h => ?_) (fun c hc => List.mem_of_mem_filter hc) rfl rfl (fun _ => id)
    hInv.active_finish (fun c hc hDropped => ?_) (hInv.flagged_update fun c h => ?_) fun _ _ h => ?_
  · rw [hOld] at h
    cases h
  · cases h
  · obtain ⟨hc, hNot⟩ := List.mem_filter.mp hc
    have hNot : c ∉ localDropped := of_decide_eq_true hNot
    refine (hInv.owed c hc hDropped).imp_right fun h => exists_update_of h ?_
    rw [hOld]
    exact fun hMem => absurd hMem hNot
  · rw [hOld] at h
    exact h.elim
  · cases h

theorem step {s' : State} {label : Label} (hInv : Inv s) (hOk : Permitted s label)
    (hStep : s.step label = some s') : Inv s' := by
  have hAdding : ∀ {thread : Nat} {call : Call}, s.calls thread = call → (∀ c, call ≠ .adding c) →
      ∀ c, s.calls thread ≠ .adding c := by
    rintro _ _ rfl h
    exact h
  cases label with
  | addConnection thread c =>
    rw [State.step] at hStep
    split at hStep <;> cases hStep
    rename_i hOld hMutex
    exact hInv.addConnection hOld hMutex
  | addDropListener thread =>
    rw [State.step] at hStep
    split at hStep <;> cases hStep
    rename_i c hOld
    exact hInv.addDropListener hOld (hOk c hOld)
  | drop thread c =>
    rw [State.step] at hStep
    split at hStep
    · rename_i hOld
      split at hStep <;> cases hStep
      · exact hInv
      · refine hInv.flag (hAdding hOld fun _ h => by cases h) (fun _ h => by cases h) (fun _ _ h => by cases h) ?_ rfl
          (hInv.active_begin _)
        rw [hOld]
        exact fun _ => id
    · cases hStep
  | emit thread =>
    rw [State.step] at hStep
    split at hStep <;> cases hStep
    rename_i c call hOf
    obtain ⟨hOld, hDrop⟩ := isDrop_of_dropOf hOf
    exact hInv.emit hOld hDrop
  | onConnectionDropped thread =>
    rw [State.step] at hStep
    split at hStep <;> cases hStep
    rename_i c left call hOf
    obtain ⟨hOld, hDrop⟩ := isDrop_of_dropOf hOf
    exact hInv.onConnectionDropped hOld hDrop
  | endDrop thread =>
    rw [State.step] at hStep
    split at hStep <;> cases hStep
    · rename_i c hOld
      refine hInv.pass (hAdding hOld fun _ h => by cases h) (fun _ h => by cases h) (fun _ _ h => by cases h) ?_
        hInv.active_finish
      rw [hOld]
      exact fun _ h => Nat.lt_irrefl 0 h.2
    · rename_i c rest hOld
      refine hInv.pass (hAdding hOld fun _ h => by cases h) (fun _ h => by cases h) (fun _ _ h => by cases h) ?_
        (hInv.active_goto (hOld ▸ Call.noConfusion) _)
      rw [hOld]
      exact fun _ h => Nat.lt_irrefl 0 h.2
  | clear thread =>
    rw [State.step] at hStep
    split at hStep <;> cases hStep
    rename_i hOld hMutex
    exact hInv.clear hOld
  | clearNext thread =>
    rw [State.step] at hStep
    split at hStep
    · rename_i c rest hOld
      have hActive : ∀ call t, Function.update s.calls thread call t ≠ .idle → t ∈ s.active :=
        hInv.active_goto (hOld ▸ Call.noConfusion)
      have hOwes : ∀ c, ¬ (s.calls thread).Owes c := by
        rw [hOld]
        exact fun _ => id
      split at hStep <;> cases hStep
      · exact hInv.pass (hAdding hOld fun _ h => by cases h) (fun _ h => by cases h) (fun _ _ h => by cases h) hOwes
          (hActive _)
      · exact hInv.flag (hAdding hOld fun _ h => by cases h) (fun _ h => by cases h) (fun _ _ h => by cases h) hOwes rfl
          (hActive _)
    · cases hStep
  | clearDropped thread =>
    rw [State.step] at hStep
    split at hStep <;> cases hStep
    rename_i hOld
    exact hInv.clearDropped hOld hOk
  | removeDroppedConnections thread =>
    rw [State.step] at hStep
    split at hStep <;> cases hStep
    rename_i hOld
    exact hInv.removeDroppedConnections hOld
  | erase thread =>
    rw [State.step] at hStep
    split at hStep <;> cases hStep
    rename_i localDropped alone before hOld hMutex
    exact hInv.erase hOld

end Inv

theorem inv_of_reachable {s : State} (hReach : machine.ReachableWhen Permitted s) : Inv s := by
  refine Machine.ReachableWhen.invariant Inv ?_ ?_ hReach
  · rintro s rfl
    exact Inv.start
  · exact fun s label s' hInv hOk hStep => hInv.step hOk hStep

/-- A removal that started alone leaves no connection that was dropped by then. -/
theorem no_dropped_connection_left {s s' : State} {thread : Nat} {localDropped : List Nat} {before : Nat → Bool}
    (hReach : machine.ReachableWhen Permitted s) (hCall : s.calls thread = .removing localDropped true before)
    (hStep : s.step (.erase thread) = some s') : ∀ c ∈ s'.connections, before c = false := by
  have hInv := inv_of_reachable hReach
  rw [State.step] at hStep
  split at hStep <;> cases hStep
  rename_i local' alone before' hOld hMutex
  obtain ⟨rfl, rfl, rfl⟩ := Call.removing.inj (hCall.symm.trans hOld)
  intro c hc
  obtain ⟨hc, hNot⟩ := List.mem_filter.mp hc
  have hNot : c ∉ localDropped := of_decide_eq_true hNot
  by_contra hBefore
  obtain ⟨_, hConnections⟩ := hInv.alone thread localDropped before hCall c (Bool.not_eq_false _ ▸ hBefore)
  rcases hConnections hc with h | h
  · exact hNot h
  · exact hInv.not_adding hMutex h

/-- Added, dropped by another thread and removed. -/
theorem no_dropped_connection_left_later : ∃ s s' localDropped before,
    machine.run State.start [.addConnection 0 7, .addDropListener 0, .drop 1 7, .emit 1, .onConnectionDropped 1,
      .endDrop 1, .removeDroppedConnections 0] = some s ∧
    s.calls 0 = .removing localDropped true before ∧ before 7 = true ∧ s.step (.erase 0) = some s' ∧
    ∀ c ∈ s'.connections, before c = false := by
  have hReach : machine.ReachableWhen Permitted State.start := .init rfl
  have hReach := hReach.step (a := Label.addConnection 0 7) trivial rfl
  have hReach := hReach.step (a := Label.addDropListener 0) (fun _ _ => rfl) rfl
  have hReach := hReach.step (a := Label.drop 1 7) trivial rfl
  have hReach := hReach.step (a := Label.emit 1) trivial rfl
  have hReach := hReach.step (a := Label.onConnectionDropped 1) trivial rfl
  have hReach := hReach.step (a := Label.endDrop 1) trivial rfl
  have hReach := hReach.step (a := Label.removeDroppedConnections 0) trivial rfl
  refine ⟨_, _, _, _, rfl, rfl, rfl, rfl, ?_⟩
  exact @no_dropped_connection_left _ _ 0 _ _ hReach rfl rfl

/-- What `onRetryTimer` comes to when the peer hangs up between `initialize` and `addConnection`. -/
theorem not_no_dropped_connection_left : ¬ ∀ (s s' : State) (thread : Nat) (localDropped : List Nat)
    (before : Nat → Bool), machine.Reachable s → s.calls thread = .removing localDropped true before →
    s.step (.erase thread) = some s' → ∀ c ∈ s'.connections, before c = false := by
  intro h
  have hReach : machine.Reachable State.start := .init rfl
  have hReach := hReach.step (a := Label.drop 1 7) trivial rfl
  have hReach := hReach.step (a := Label.emit 1) trivial rfl
  have hReach := hReach.step (a := Label.endDrop 1) trivial rfl
  have hReach := hReach.step (a := Label.addConnection 0 7) trivial rfl
  have hReach := hReach.step (a := Label.addDropListener 0) trivial rfl
  have hReach := hReach.step (a := Label.removeDroppedConnections 0) trivial rfl
  have hGone := h _ _ 0 _ _ hReach rfl rfl 7 List.mem_cons_self
  cases hGone

end XcRos.Libros.ConnectionManager
