import Mathlib.Data.List.Nodup
import XcRos.Foundation.Machine
import XcRos.Foundation.Update
import XcRos.Libros.PublisherSet

/-! # The pool of RPC clients

`RobotRPCManager` keeps its clients in a vector under a mutex and marks those in use. The threads of `master::execute`
take clients out of it and give them back. A client is named by its number among those that were made; it is closed when
it is deleted. How long an idle client is kept is not written down in the sources.
-/

namespace XcRos.Libros.ClientPool

open XcRos.Foundation XcRos.Rpc

structure CachedRobotRpcClient where
  client : Nat
  host : Bytes
  port : Int32
  uri : Bytes
  inUse : Bool
  lastUseTime : Nat
deriving DecidableEq

/-- The arguments of `execute` that decide where it goes on, and when it began. -/
structure Call where
  masterHost : Bytes
  masterPort : Int32
  waitForMaster : Bool
  startTime : Nat
deriving DecidableEq

/-- A client, and the number of the call of `getRobotRPCClient` that gave it out. -/
structure Taken where
  client : Nat
  take : Nat
deriving DecidableEq

/-- What `execute` returns, how its last call went, and whether the response was validated. -/
structure Exit where
  result : Bool
  b : Bool
  validated : Bool
deriving DecidableEq

/-- Where a thread is in `master::execute`. -/
inductive Place where
  | outside
  | entered (call : Call)
  | calling (call : Call) (taken : Taken)
  | called (call : Call) (taken : Taken) (b : Bool) (response : Value)
  | slept (call : Call) (taken : Taken)
  | leaving (taken : Taken) (exit : Exit)
  | returning (take : Nat) (exit : Exit)

def Place.taken : Place → Option Taken
  | .calling _ taken | .called _ taken _ _ | .slept _ taken | .leaving taken _ => some taken
  | .outside | .entered _ | .returning _ _ => none

/-- Kept beside: the clients that were deleted, and which takes were given back and which calls have returned. -/
structure State where
  clients : List CachedRobotRpcClient
  created : Nat
  deleted : List Nat
  shuttingDown : Bool
  nodeShuttingDown : Bool
  retryTimeout : Nat
  threads : Nat → Place
  takes : Nat
  released : List Nat
  returned : List (Nat × Exit)

/-! ## The vector -/

structure Scan where
  clients : List CachedRobotRpcClient
  found : Option Nat
  toasted : List Nat

/-- The loop of `getRobotRPCClient`; `clock n` is the clock at the `n`-th look at it. -/
def scan (zombieTime : Nat) (host : Bytes) (port : Int32) (uri : Bytes) (clock : Nat → Nat) :
    Nat → List CachedRobotRpcClient → Scan
  | _, [] => ⟨[], none, []⟩
  | n, i :: clients =>
    if i.inUse then
      let rest := scan zombieTime host port uri clock n clients
      { rest with clients := i :: rest.clients }
    else if i.host = host ∧ i.port = port ∧ i.uri = uri then
      ⟨{ i with inUse := true, lastUseTime := clock n } :: clients, some i.client, []⟩
    else if i.lastUseTime + zombieTime < clock n then
      let rest := scan zombieTime host port uri clock (n + 1) clients
      { rest with toasted := i.client :: rest.toasted }
    else
      let rest := scan zombieTime host port uri clock (n + 1) clients
      { rest with clients := i :: rest.clients }

def unuse (c : Nat) : List CachedRobotRpcClient → List CachedRobotRpcClient
  | [] => []
  | i :: clients => if c = i.client then { i with inUse := false } :: clients else i :: unuse c clients

namespace State

def start (retryTimeout : Nat) : State where
  clients := []
  created := 0
  deleted := []
  shuttingDown := false
  nodeShuttingDown := false
  retryTimeout := retryTimeout
  threads _ := .outside
  takes := 0
  released := []
  returned := []

/-- The client, and the manager. -/
def getRobotRPCClient (s : State) (zombieTime : Nat) (host : Bytes) (port : Int32) (uri : Bytes) (clock : Nat → Nat) :
    Nat × State :=
  let r := scan zombieTime host port uri clock 0 s.clients
  let s := { s with clients := r.clients, deleted := r.toasted ++ s.deleted, takes := s.takes + 1 }
  match r.found with
  | some c => (c, s)
  | none =>
    (s.created, { s with
      clients := s.clients ++ [⟨s.created, host, port, uri, true, clock s.clients.length⟩]
      created := s.created + 1 })

/-- A take counts as given back if its client is found. -/
def releaseRobotRPCClient (s : State) (taken : Taken) : State :=
  if s.clients.any (·.client = taken.client) then
    let s := { s with released := taken.take :: s.released }
    if s.shuttingDown then
      { s with
        clients := s.clients.eraseP (·.client == taken.client)
        deleted := taken.client :: s.deleted }
    else { s with clients := unuse taken.client s.clients }
  else s

/-- The loop of `shutdown` over the clients. -/
def killClients (s : State) : State :=
  { s with
    clients := s.clients.filter (·.inUse)
    deleted := (s.clients.filter (!·.inUse)).map (·.client) ++ s.deleted }

def goto (s : State) (thread : Nat) (place : Place) : State := { s with threads := Function.update s.threads thread place }

/-- `!isShuttingDown() && !RobotRPCManager::Instance()->isShuttingDown()` -/
def ok (s : State) : Bool := !s.nodeShuttingDown && !s.shuttingDown

end State

/-! ## `master::execute` -/

/-- Behind a call: where the thread goes if the two flags say `ok`, at the time `now`. -/
def judge (ok : Bool) (retryTimeout now : Nat) (call : Call) (taken : Taken) (b : Bool) (response : Value) : Place :=
  if !b && ok then
    if !call.waitForMaster then .leaving taken ⟨false, b, false⟩
    else if retryTimeout ≠ 0 ∧ retryTimeout ≤ now - call.startTime then .leaving taken ⟨false, b, false⟩
    else .slept call taken
  else
    match PublisherSet.validateXmlrpcResponse response with
    | none => .leaving taken ⟨false, b, false⟩
    | some _ => .leaving taken ⟨b, b, true⟩

/-- What a thread does, or what happens to the node; each carries what the clock and the network decide. -/
inductive Label where
  | execute (thread : Nat) (call : Call)
  | getRobotRPCClient (thread : Nat) (clock : Nat → Nat)
  | call (thread : Nat) (b : Bool) (response : Value)
  | judge (thread now : Nat)
  | wake (thread : Nat)
  | releaseRobotRPCClient (thread : Nat)
  | endExecute (thread : Nat)
  | setRetryTimeout (timeout : Nat)
  | requestShutdown
  | shutdown
  | killClients

def step (zombieTime : Nat) (s : State) : Label → Option State
  | .execute thread call =>
    match s.threads thread with
    | .outside => some (s.goto thread (.entered call))
    | _ => none
  | .getRobotRPCClient thread clock =>
    match s.threads thread with
    | .entered call =>
      let r := s.getRobotRPCClient zombieTime call.masterHost call.masterPort (bytes "/") clock
      some (r.2.goto thread (.calling call ⟨r.1, s.takes⟩))
    | _ => none
  | .call thread b response =>
    match s.threads thread with
    | .calling call taken => some (s.goto thread (.called call taken b response))
    | _ => none
  | .judge thread now =>
    match s.threads thread with
    | .called call taken b response => some (s.goto thread (judge s.ok s.retryTimeout now call taken b response))
    | _ => none
  | .wake thread =>
    match s.threads thread with
    | .slept call taken =>
      some (s.goto thread (if s.ok then .calling call taken else .leaving taken ⟨false, false, false⟩))
    | _ => none
  | .releaseRobotRPCClient thread =>
    match s.threads thread with
    | .leaving taken exit => some ((s.releaseRobotRPCClient taken).goto thread (.returning taken.take exit))
    | _ => none
  | .endExecute thread =>
    match s.threads thread with
    | .returning take exit => some { s.goto thread .outside with returned := (take, exit) :: s.returned }
    | _ => none
  | .setRetryTimeout timeout => some { s with retryTimeout := timeout }
  | .requestShutdown => some { s with nodeShuttingDown := true }
  | .shutdown => if s.shuttingDown then none else some { s with shuttingDown := true }
  | .killClients => if s.shuttingDown then some s.killClients else none

def machine (zombieTime : Nat) : Machine State Label where
  Init s := ∃ retryTimeout, s = .start retryTimeout
  step := step zombieTime

/-! ## The property -/

/-- The client of one thread is no other thread's and is not deleted; no client is deleted twice; each take is given back
once or is in the hands of a thread; and a call returns behind the release, with true only if its last call succeeded
and its response was validated. -/
structure Exclusive (s : State) : Prop where
  alone : ∀ t t' taken taken', (s.threads t).taken = some taken → (s.threads t').taken = some taken' →
    taken.client = taken'.client → t = t'
  alive : ∀ t taken, (s.threads t).taken = some taken → taken.client ∉ s.deleted
  deletedOnce : s.deleted.Nodup
  takes : ∀ take < s.takes, s.released.count take = 1 ∧ (∀ t taken, (s.threads t).taken = some taken → taken.take ≠ take) ∨
    s.released.count take = 0 ∧ ∃ t taken, (s.threads t).taken = some taken ∧ taken.take = take
  returned : ∀ r ∈ s.returned, s.released.count r.1 = 1 ∧ (r.2.result = true → r.2.b = true ∧ r.2.validated = true)

/-! ## The vector under its operations -/

def ids (clients : List CachedRobotRpcClient) : List Nat := clients.map (·.client)

theorem mem_ids {clients : List CachedRobotRpcClient} {c : CachedRobotRpcClient} (h : c ∈ clients) :
    c.client ∈ ids clients := List.mem_map_of_mem h

theorem eq_of_client {clients : List CachedRobotRpcClient} (hDistinct : (ids clients).Nodup) {c d : CachedRobotRpcClient}
    (hc : c ∈ clients) (hd : d ∈ clients) (h : c.client = d.client) : c = d :=
  List.inj_on_of_nodup_map hDistinct hc hd h

section

variable {zombieTime : Nat} {host uri : Bytes} {port : Int32} {clock : Nat → Nat}

theorem scan_perm (n : Nat) (clients : List CachedRobotRpcClient) :
    (ids (scan zombieTime host port uri clock n clients).clients ++
      (scan zombieTime host port uri clock n clients).toasted).Perm (ids clients) := by
  induction clients generalizing n with
  | nil => exact .refl _
  | cons i clients ih =>
    rw [scan]
    split
    · exact (ih n).cons i.client
    · split
      · dsimp only
        rw [List.append_nil]
        exact .refl _
      · split
        · exact List.perm_middle.trans ((ih (n + 1)).cons i.client)
        · exact (ih (n + 1)).cons i.client

theorem scan_inUse {n : Nat} {clients : List CachedRobotRpcClient} {c : CachedRobotRpcClient} (hc : c ∈ clients)
    (hUse : c.inUse = true) : c ∈ (scan zombieTime host port uri clock n clients).clients := by
  induction clients generalizing n with
  | nil => cases hc
  | cons i clients ih =>
    rw [scan]
    rcases List.mem_cons.mp hc with rfl | hc
    · rw [if_pos hUse]
      exact List.mem_cons_self
    · split
      · exact List.mem_cons_of_mem _ (ih hc)
      · split
        · exact List.mem_cons_of_mem _ hc
        · split
          · exact ih hc
          · exact List.mem_cons_of_mem _ (ih hc)

theorem scan_found {n f : Nat} {clients : List CachedRobotRpcClient}
    (h : (scan zombieTime host port uri clock n clients).found = some f) :
    (∃ i ∈ clients, i.client = f ∧ i.inUse = false) ∧
      ∃ c ∈ (scan zombieTime host port uri clock n clients).clients, c.client = f ∧ c.inUse = true := by
  induction clients generalizing n with
  | nil => cases h
  | cons i clients ih =>
    rw [scan] at h ⊢
    split
    · rename_i hUse
      rw [if_pos hUse] at h
      obtain ⟨⟨j, hj, hFree⟩, c, hc, hUsed⟩ := ih h
      exact ⟨⟨j, List.mem_cons_of_mem _ hj, hFree⟩, c, List.mem_cons_of_mem _ hc, hUsed⟩
    · rename_i hUse
      rw [if_neg hUse] at h
      split
      · rename_i hMatch
        rw [if_pos hMatch] at h
        obtain rfl := Option.some.inj h
        exact ⟨⟨i, List.mem_cons_self, rfl, Bool.eq_false_iff.mpr hUse⟩, _, List.mem_cons_self, rfl, rfl⟩
      · rename_i hMatch
        rw [if_neg hMatch] at h
        split
        · rename_i hZombie
          rw [if_pos hZombie] at h
          obtain ⟨⟨j, hj, hFree⟩, hUsed⟩ := ih h
          exact ⟨⟨j, List.mem_cons_of_mem _ hj, hFree⟩, hUsed⟩
        · rename_i hZombie
          rw [if_neg hZombie] at h
          obtain ⟨⟨j, hj, hFree⟩, c, hc, hUsed⟩ := ih h
          exact ⟨⟨j, List.mem_cons_of_mem _ hj, hFree⟩, c, List.mem_cons_of_mem _ hc, hUsed⟩

end

theorem ids_unuse (c : Nat) (clients : List CachedRobotRpcClient) : ids (unuse c clients) = ids clients := by
  induction clients with
  | nil => rfl
  | cons i clients ih =>
    rw [unuse]
    split
    · rfl
    · exact congrArg (i.client :: ·) ih

theorem mem_unuse {c : Nat} {clients : List CachedRobotRpcClient} {i : CachedRobotRpcClient} (hi : i ∈ clients)
    (hNe : i.client ≠ c) : i ∈ unuse c clients := by
  induction clients with
  | nil => cases hi
  | cons j clients ih =>
    rw [unuse]
    rcases List.mem_cons.mp hi with rfl | hi
    · rw [if_neg hNe.symm]
      exact List.mem_cons_self
    · split
      · exact List.mem_cons_of_mem _ hi
      · exact List.mem_cons_of_mem _ (ih hi)

/-! ## Who owns a client -/

/-- What is in the hands of the threads is marked in the vector, each of it once, and what was deleted is gone. -/
structure Owned (s : State) (held : Nat → Option Taken) : Prop where
  numbered : ∀ c ∈ ids s.clients, c < s.created
  distinct : (ids s.clients).Nodup
  gone : ∀ d ∈ s.deleted, d < s.created ∧ d ∉ ids s.clients
  deletedOnce : s.deleted.Nodup
  marked : ∀ t taken, held t = some taken → ∃ c ∈ s.clients, c.client = taken.client ∧ c.inUse = true
  alone : ∀ t t' taken taken', held t = some taken → held t' = some taken' → taken.client = taken'.client → t = t'
  takenOnce : ∀ t t' taken taken', held t = some taken → held t' = some taken' → taken.take = taken'.take → t = t'
  pending : ∀ t taken, held t = some taken → taken.take < s.takes ∧ taken.take ∉ s.released
  releasedOnce : s.released.Nodup
  released : ∀ take ∈ s.released, take < s.takes
  accounted : ∀ take < s.takes, take ∈ s.released ∨ ∃ t taken, held t = some taken ∧ taken.take = take

namespace Owned

variable {s : State} {held : Nat → Option Taken} {thread : Nat}

theorem of_update {new : Option Taken} {t : Nat} {taken : Taken} (h : Function.update held thread new t = some taken) :
    t = thread ∧ new = some taken ∨ t ≠ thread ∧ held t = some taken := by
  rcases eq_or_ne t thread with rfl | hNe
  · rw [Function.update_self] at h
    exact .inl ⟨rfl, h⟩
  · rw [Function.update_of_ne hNe] at h
    exact .inr ⟨hNe, h⟩

theorem give (h : Owned s held) (hNone : held thread = none) {s' : State} {c : Nat}
    (hTakes : s'.takes = s.takes + 1) (hReleased : s'.released = s.released)
    (hNumbered : ∀ c ∈ ids s'.clients, c < s'.created) (hDistinct : (ids s'.clients).Nodup)
    (hGone : ∀ d ∈ s'.deleted, d < s'.created ∧ d ∉ ids s'.clients) (hDeleted : s'.deleted.Nodup)
    (hKept : ∀ i ∈ s.clients, i.inUse = true → i ∈ s'.clients)
    (hNew : ∃ i ∈ s'.clients, i.client = c ∧ i.inUse = true)
    (hFree : ∀ i ∈ s.clients, i.inUse = true → i.client ≠ c) :
    Owned s' (Function.update held thread (some ⟨c, s.takes⟩)) where
  numbered := hNumbered
  distinct := hDistinct
  gone := hGone
  deletedOnce := hDeleted
  marked t taken ht := by
    rcases of_update ht with ⟨-, hSame⟩ | ⟨-, hOld⟩
    · obtain rfl := Option.some.inj hSame
      exact hNew
    · obtain ⟨i, hi, hClient, hUse⟩ := h.marked t taken hOld
      exact ⟨i, hKept i hi hUse, hClient, hUse⟩
  alone t t' taken taken' ht ht' hSame := by
    have hOther : ∀ t taken, held t = some taken → taken.client ≠ c := by
      intro t taken ht
      obtain ⟨i, hi, hClient, hUse⟩ := h.marked t taken ht
      exact hClient ▸ hFree i hi hUse
    rcases of_update ht with ⟨rfl, hNew⟩ | ⟨hNe, hOld⟩ <;> rcases of_update ht' with ⟨rfl, hNew'⟩ | ⟨hNe', hOld'⟩
    · rfl
    · obtain rfl := Option.some.inj hNew
      exact absurd hSame.symm (hOther t' taken' hOld')
    · obtain rfl := Option.some.inj hNew'
      exact absurd hSame (hOther t taken hOld)
    · exact h.alone t t' taken taken' hOld hOld' hSame
  takenOnce t t' taken taken' ht ht' hSame := by
    rcases of_update ht with ⟨rfl, hNew⟩ | ⟨hNe, hOld⟩ <;> rcases of_update ht' with ⟨rfl, hNew'⟩ | ⟨hNe', hOld'⟩
    · rfl
    · obtain rfl := Option.some.inj hNew
      exact absurd hSame.symm (Nat.ne_of_lt (h.pending t' taken' hOld').1)
    · obtain rfl := Option.some.inj hNew'
      exact absurd hSame (Nat.ne_of_lt (h.pending t taken hOld).1)
    · exact h.takenOnce t t' taken taken' hOld hOld' hSame
  pending t taken ht := by
    rw [hTakes, hReleased]
    rcases of_update ht with ⟨-, hSame⟩ | ⟨-, hOld⟩
    · obtain rfl := Option.some.inj hSame
      exact ⟨Nat.lt_succ_self _, fun hMem => Nat.lt_irrefl _ (h.released _ hMem)⟩
    · obtain ⟨hLess, hOpen⟩ := h.pending t taken hOld
      exact ⟨Nat.lt_succ_of_lt hLess, hOpen⟩
  releasedOnce := hReleased ▸ h.releasedOnce
  released take hMem := by
    rw [hReleased] at hMem
    rw [hTakes]
    exact Nat.lt_succ_of_lt (h.released take hMem)
  accounted take hTake := by
    rw [hTakes] at hTake
    rw [hReleased]
    rcases Nat.lt_succ_iff_lt_or_eq.mp hTake with hLess | rfl
    · refine (h.accounted take hLess).imp_right ?_
      rintro ⟨t, taken, ht, hSame⟩
      have hNe : t ≠ thread := by
        rintro rfl
        rw [hNone] at ht
        cases ht
      exact ⟨t, taken, by rwa [Function.update_of_ne hNe], hSame⟩
    · exact .inr ⟨thread, _, Function.update_self .., rfl⟩

theorem getRobotRPCClient (h : Owned s held) (hNone : held thread = none) (zombieTime : Nat) (host : Bytes) (port : Int32)
    (uri : Bytes) (clock : Nat → Nat) :
    Owned (s.getRobotRPCClient zombieTime host port uri clock).2
      (Function.update held thread (some ⟨(s.getRobotRPCClient zombieTime host port uri clock).1, s.takes⟩)) := by
  have hPerm := @scan_perm zombieTime host uri port clock 0 s.clients
  have hNodup := hPerm.nodup_iff.mpr h.distinct
  obtain ⟨hDistinct, hToasted, hDisjoint⟩ := List.nodup_append.mp hNodup
  have hIds : ∀ c ∈ ids (scan zombieTime host port uri clock 0 s.clients).clients, c ∈ ids s.clients :=
    fun c hc => hPerm.mem_iff.mp (List.mem_append_left _ hc)
  have hOld : ∀ d ∈ (scan zombieTime host port uri clock 0 s.clients).toasted, d ∈ ids s.clients :=
    fun d hd => hPerm.mem_iff.mp (List.mem_append_right _ hd)
  have hGone : ∀ d ∈ (scan zombieTime host port uri clock 0 s.clients).toasted ++ s.deleted,
      d < s.created ∧ d ∉ ids (scan zombieTime host port uri clock 0 s.clients).clients := by
    intro d hd
    rcases List.mem_append.mp hd with hd | hd
    · exact ⟨h.numbered d (hOld d hd), fun hMem => hDisjoint d hMem d hd rfl⟩
    · exact ⟨(h.gone d hd).1, fun hMem => (h.gone d hd).2 (hIds d hMem)⟩
  have hDeleted : ((scan zombieTime host port uri clock 0 s.clients).toasted ++ s.deleted).Nodup := by
    refine List.nodup_append.mpr ⟨hToasted, h.deletedOnce, ?_⟩
    rintro d hd _ hd' rfl
    exact (h.gone d hd').2 (hOld d hd)
  rw [State.getRobotRPCClient]
  dsimp only
  split
  · rename_i f hFound
    obtain ⟨⟨i, hi, hClient, hFree⟩, hUsed⟩ := scan_found hFound
    refine h.give hNone rfl rfl (fun c hc => h.numbered c (hIds c hc)) hDistinct hGone hDeleted
      (fun j hj hUse => scan_inUse hj hUse) hUsed ?_
    intro j hj hUse hSame
    rw [eq_of_client h.distinct hj hi (hSame.trans hClient.symm), hFree] at hUse
    cases hUse
  · have hNew : s.created ∉ ids (scan zombieTime host port uri clock 0 s.clients).clients :=
      fun hMem => Nat.lt_irrefl _ (h.numbered _ (hIds _ hMem))
    have hAppend : ∀ i : CachedRobotRpcClient, ids ((scan zombieTime host port uri clock 0 s.clients).clients ++ [i]) =
        ids (scan zombieTime host port uri clock 0 s.clients).clients ++ [i.client] := fun i => List.map_append
    refine h.give hNone rfl rfl ?_ ?_ ?_ hDeleted (fun j hj hUse => List.mem_append_left _ (scan_inUse hj hUse))
      ⟨_, List.mem_append_right _ List.mem_cons_self, rfl, rfl⟩ ?_
    · dsimp only
      rw [hAppend]
      intro c hc
      rcases List.mem_append.mp hc with hc | hc
      · exact Nat.lt_succ_of_lt (h.numbered c (hIds c hc))
      · rw [List.mem_singleton.mp hc]
        exact Nat.lt_succ_self _
    · dsimp only
      rw [hAppend]
      refine List.nodup_append.mpr ⟨hDistinct, List.nodup_singleton _, ?_⟩
      rintro c hc _ hc' rfl
      rw [List.mem_singleton.mp hc'] at hc
      exact hNew hc
    · dsimp only
      rw [hAppend]
      intro d hd
      obtain ⟨hLess, hNot⟩ := hGone d hd
      refine ⟨Nat.lt_succ_of_lt hLess, fun hMem => ?_⟩
      rcases List.mem_append.mp hMem with hMem | hMem
      · exact hNot hMem
      · rw [List.mem_singleton.mp hMem] at hLess
        exact Nat.lt_irrefl _ hLess
    · intro j hj _ hSame
      exact Nat.ne_of_lt (h.numbered _ (mem_ids hj)) hSame

theorem giveBack (h : Owned s held) {taken : Taken} (hTaken : held thread = some taken) {s' : State}
    (hTakes : s'.takes = s.takes) (hReleased : s'.released = taken.take :: s.released) (hCreated : s'.created = s.created)
    (hIds : ∀ c ∈ ids s'.clients, c ∈ ids s.clients) (hDistinct : (ids s'.clients).Nodup)
    (hGone : ∀ d ∈ s'.deleted, d < s.created ∧ d ∉ ids s'.clients) (hDeleted : s'.deleted.Nodup)
    (hKept : ∀ i ∈ s.clients, i.client ≠ taken.client → i ∈ s'.clients) :
    Owned s' (Function.update held thread none) where
  numbered c hc := hCreated ▸ h.numbered c (hIds c hc)
  distinct := hDistinct
  gone := hCreated ▸ hGone
  deletedOnce := hDeleted
  marked t taken' ht := by
    rcases of_update ht with ⟨-, hSame⟩ | ⟨hNe, hOld⟩
    · cases hSame
    · obtain ⟨i, hi, hClient, hUse⟩ := h.marked t taken' hOld
      refine ⟨i, hKept i hi fun hSame => hNe ?_, hClient, hUse⟩
      exact h.alone t thread taken' taken hOld hTaken (hClient.symm.trans hSame)
  alone t t' taken₁ taken₂ ht ht' hSame := by
    rcases of_update ht with ⟨-, hNew⟩ | ⟨-, hOld⟩
    · cases hNew
    · rcases of_update ht' with ⟨-, hNew⟩ | ⟨-, hOld'⟩
      · cases hNew
      · exact h.alone t t' taken₁ taken₂ hOld hOld' hSame
  takenOnce t t' taken₁ taken₂ ht ht' hSame := by
    rcases of_update ht with ⟨-, hNew⟩ | ⟨-, hOld⟩
    · cases hNew
    · rcases of_update ht' with ⟨-, hNew⟩ | ⟨-, hOld'⟩
      · cases hNew
      · exact h.takenOnce t t' taken₁ taken₂ hOld hOld' hSame
  pending t taken' ht := by
    rcases of_update ht with ⟨-, hSame⟩ | ⟨hNe, hOld⟩
    · cases hSame
    · obtain ⟨hLess, hOpen⟩ := h.pending t taken' hOld
      rw [hTakes, hReleased]
      refine ⟨hLess, fun hMem => ?_⟩
      rcases List.mem_cons.mp hMem with hSame | hMem
      · exact hNe (h.takenOnce t thread taken' taken hOld hTaken hSame)
      · exact hOpen hMem
  releasedOnce := by
    rw [hReleased]
    exact List.nodup_cons.mpr ⟨(h.pending thread taken hTaken).2, h.releasedOnce⟩
  released take hMem := by
    rw [hReleased] at hMem
    rw [hTakes]
    rcases List.mem_cons.mp hMem with rfl | hMem
    · exact (h.pending thread taken hTaken).1
    · exact h.released take hMem
  accounted take hTake := by
    rw [hTakes] at hTake
    rw [hReleased]
    rcases h.accounted take hTake with hMem | ⟨t, taken', ht, rfl⟩
    · exact .inl (List.mem_cons_of_mem _ hMem)
    · rcases eq_or_ne t thread with rfl | hNe
      · obtain rfl := Option.some.inj (ht.symm.trans hTaken)
        exact .inl List.mem_cons_self
      · exact .inr ⟨t, taken', by rwa [Function.update_of_ne hNe], rfl⟩

theorem releaseRobotRPCClient (h : Owned s held) {taken : Taken} (hTaken : held thread = some taken) :
    Owned (s.releaseRobotRPCClient taken) (Function.update held thread none) ∧
      (s.releaseRobotRPCClient taken).released = taken.take :: s.released := by
  obtain ⟨i, hi, hClient, -⟩ := h.marked thread taken hTaken
  have hFound : s.clients.any (·.client = taken.client) = true := List.any_eq_true.mpr ⟨i, hi, decide_eq_true hClient⟩
  rw [State.releaseRobotRPCClient, if_pos hFound]
  dsimp only
  split
  · have hPairwise : s.clients.Pairwise fun a b => a.client ≠ b.client := List.pairwise_map.mp h.distinct
    have hSub : (ids (s.clients.eraseP (·.client == taken.client))).Sublist (ids s.clients) :=
      (List.eraseP_sublist ..).map _
    have hOther : taken.client ∉ ids (s.clients.eraseP (·.client == taken.client)) := by
      intro hMem
      obtain ⟨j, hj, hSame⟩ := List.mem_map.mp hMem
      exact not_of_mem_eraseP hPairwise hj hSame
    refine ⟨h.giveBack hTaken rfl rfl rfl (fun c hc => hSub.subset hc) (h.distinct.sublist hSub) ?_ ?_ ?_, rfl⟩
    · intro d hd
      rcases List.mem_cons.mp hd with rfl | hd
      · exact ⟨hClient ▸ h.numbered _ (mem_ids hi), hOther⟩
      · exact ⟨(h.gone d hd).1, fun hMem => (h.gone d hd).2 (hSub.subset hMem)⟩
    · exact List.nodup_cons.mpr ⟨fun hMem => (h.gone _ hMem).2 (hClient ▸ mem_ids hi), h.deletedOnce⟩
    · exact fun j hj hNe => (List.mem_eraseP_of_neg (by simpa using hNe)).mpr hj
  · refine ⟨h.giveBack hTaken rfl rfl rfl ?_ ?_ ?_ h.deletedOnce (fun j hj hNe => mem_unuse hj hNe), rfl⟩
    · dsimp only
      rw [ids_unuse]
      exact fun _ => id
    · dsimp only
      rw [ids_unuse]
      exact h.distinct
    · dsimp only
      rw [ids_unuse]
      exact h.gone

theorem killClients (h : Owned s held) : Owned s.killClients held := by
  have hSub : (ids (s.clients.filter (·.inUse))).Sublist (ids s.clients) := List.filter_sublist.map _
  have hKilled : (ids (s.clients.filter (!·.inUse))).Sublist (ids s.clients) := List.filter_sublist.map _
  have hApart : ∀ d ∈ ids (s.clients.filter (!·.inUse)), d ∉ ids (s.clients.filter (·.inUse)) := by
    intro d hd hMem
    obtain ⟨i, hi, rfl⟩ := List.mem_map.mp hd
    obtain ⟨j, hj, hSame⟩ := List.mem_map.mp hMem
    obtain ⟨hi, hFree⟩ := List.mem_filter.mp hi
    obtain ⟨hj, hUse⟩ := List.mem_filter.mp hj
    rw [eq_of_client h.distinct hj hi hSame] at hUse
    rw [hUse] at hFree
    cases hFree
  exact { h with
    numbered := fun c hc => h.numbered c (hSub.subset hc)
    distinct := h.distinct.sublist hSub
    gone := by
      intro d hd
      rcases List.mem_append.mp hd with hd | hd
      · exact ⟨h.numbered d (hKilled.subset hd), hApart d hd⟩
      · exact ⟨(h.gone d hd).1, fun hMem => (h.gone d hd).2 (hSub.subset hMem)⟩
    deletedOnce := by
      refine List.nodup_append.mpr ⟨h.distinct.sublist hKilled, h.deletedOnce, ?_⟩
      rintro d hd _ hd' rfl
      exact (h.gone d hd').2 (hKilled.subset hd)
    marked := by
      intro t taken ht
      obtain ⟨i, hi, hClient, hUse⟩ := h.marked t taken ht
      exact ⟨i, List.mem_filter.mpr ⟨hi, hUse⟩, hClient, hUse⟩ }

end Owned

/-! ## Every run -/

def Exit.Honest (exit : Exit) : Prop := exit.result = true → exit.b = true ∧ exit.validated = true

def Place.Settled (released : List Nat) : Place → Prop
  | .leaving _ exit => exit.Honest
  | .returning take exit => take ∈ released ∧ exit.Honest
  | _ => True

structure Inv (s : State) : Prop where
  owned : Owned s fun t => (s.threads t).taken
  settled : ∀ t, (s.threads t).Settled s.released
  returned : ∀ r ∈ s.returned, r.1 ∈ s.released ∧ r.2.Honest

theorem Place.Settled.mono {released : List Nat} {place : Place} (h : place.Settled released) (take : Nat) :
    place.Settled (take :: released) := by
  cases place with
  | leaving taken exit => exact h
  | returning take' exit => exact ⟨List.mem_cons_of_mem _ h.1, h.2⟩
  | _ => trivial

namespace Inv

variable {s : State} {thread zombieTime : Nat}

theorem start (retryTimeout : Nat) : Inv (.start retryTimeout) where
  owned :=
    { numbered := fun _ h => absurd h List.not_mem_nil
      distinct := List.nodup_nil
      gone := fun _ h => absurd h List.not_mem_nil
      deletedOnce := List.nodup_nil
      marked := fun _ _ h => by cases h
      alone := fun _ _ _ _ h => by cases h
      takenOnce := fun _ _ _ _ h => by cases h
      pending := fun _ _ h => by cases h
      releasedOnce := List.nodup_nil
      released := fun _ h => absurd h List.not_mem_nil
      accounted := fun _ h => absurd h (Nat.not_lt_zero _) }
  settled _ := trivial
  returned _ h := absurd h List.not_mem_nil

theorem taken_goto (place : Place) :
    (fun t => ((s.goto thread place).threads t).taken) =
      Function.update (fun t => (s.threads t).taken) thread place.taken := by
  funext t
  rcases eq_or_ne t thread with rfl | hNe
  · simp only [State.goto, Function.update_self]
  · simp only [State.goto, Function.update_of_ne hNe]

theorem goto (hInv : Inv s) {place : Place} (hTaken : (s.threads thread).taken = place.taken)
    (hSettled : place.Settled s.released) : Inv (s.goto thread place) where
  owned := by
    have hSame : (fun t => ((s.goto thread place).threads t).taken) = fun t => (s.threads t).taken := by
      rw [taken_goto, ← hTaken]
      exact Function.update_eq_self thread fun t => (s.threads t).taken
    rw [hSame]
    exact { hInv.owned with }
  settled t := by
    rw [State.goto]
    exact forall_update (P := fun (_ : Nat) (place : Place) => place.Settled s.released) hSettled (fun t _ => hInv.settled t) t
  returned := hInv.returned

theorem honest_false {b validated : Bool} : (Exit.mk false b validated).Honest := fun h => by cases h

theorem settled_judge {ok b : Bool} {retryTimeout now : Nat} {call : Call} {taken : Taken} {response : Value}
    (released : List Nat) :
    (judge ok retryTimeout now call taken b response).taken = some taken ∧
      (judge ok retryTimeout now call taken b response).Settled released := by
  rw [judge]
  split
  · split
    · exact ⟨rfl, honest_false⟩
    · split
      · exact ⟨rfl, honest_false⟩
      · exact ⟨rfl, trivial⟩
  · split
    · exact ⟨rfl, honest_false⟩
    · exact ⟨rfl, fun hb => ⟨hb, rfl⟩⟩

theorem getRobotRPCClient_rest (s : State) (zombieTime : Nat) (host uri : Bytes) (port : Int32) (clock : Nat → Nat) :
    (s.getRobotRPCClient zombieTime host port uri clock).2.threads = s.threads ∧
      (s.getRobotRPCClient zombieTime host port uri clock).2.released = s.released ∧
      (s.getRobotRPCClient zombieTime host port uri clock).2.returned = s.returned := by
  rw [State.getRobotRPCClient]
  dsimp only
  split
  · exact ⟨rfl, rfl, rfl⟩
  · exact ⟨rfl, rfl, rfl⟩

theorem releaseRobotRPCClient_rest (s : State) (taken : Taken) :
    (s.releaseRobotRPCClient taken).threads = s.threads ∧ (s.releaseRobotRPCClient taken).returned = s.returned := by
  rw [State.releaseRobotRPCClient]
  split
  · dsimp only
    split
    · exact ⟨rfl, rfl⟩
    · exact ⟨rfl, rfl⟩
  · exact ⟨rfl, rfl⟩

theorem step {s' : State} {label : Label} (hInv : Inv s) (hStep : ClientPool.step zombieTime s label = some s') :
    Inv s' := by
  cases label with
  | execute thread call =>
    rw [ClientPool.step] at hStep
    split at hStep <;> cases hStep
    rename_i hPlace
    exact hInv.goto (hPlace ▸ rfl) trivial
  | getRobotRPCClient thread clock =>
    rw [ClientPool.step] at hStep
    split at hStep <;> cases hStep
    rename_i call hPlace
    have hNone : (s.threads thread).taken = none := hPlace ▸ rfl
    have hOwned := hInv.owned.getRobotRPCClient hNone zombieTime call.masterHost call.masterPort (bytes "/") clock
    obtain ⟨hThreads, hReleased, hReturned⟩ :=
      getRobotRPCClient_rest s zombieTime call.masterHost (bytes "/") call.masterPort clock
    refine ⟨?_, fun t => ?_, ?_⟩
    · rw [taken_goto, hThreads]
      exact { hOwned with }
    · have hNew : ∀ taken, (Place.calling call taken).Settled s.released := fun _ => trivial
      rw [State.goto, hThreads, hReleased]
      exact forall_update (P := fun (_ : Nat) (place : Place) => place.Settled s.released) (hNew _)
        (fun t _ => hInv.settled t) t
    · rw [State.goto, hReturned, hReleased]
      exact hInv.returned
  | call thread b response =>
    rw [ClientPool.step] at hStep
    split at hStep <;> cases hStep
    rename_i hPlace
    exact hInv.goto (hPlace ▸ rfl) trivial
  | judge thread now =>
    rw [ClientPool.step] at hStep
    split at hStep <;> cases hStep
    rename_i hPlace
    exact hInv.goto (hPlace ▸ (settled_judge s.released).1.symm) (settled_judge s.released).2
  | wake thread =>
    rw [ClientPool.step] at hStep
    split at hStep <;> cases hStep
    rename_i hPlace
    split
    · exact hInv.goto (hPlace ▸ rfl) trivial
    · exact hInv.goto (hPlace ▸ rfl) honest_false
  | releaseRobotRPCClient thread =>
    rw [ClientPool.step] at hStep
    split at hStep <;> cases hStep
    rename_i taken exit hPlace
    have hTaken : (s.threads thread).taken = some taken := hPlace ▸ rfl
    have hSettled := hInv.settled thread
    rw [hPlace] at hSettled
    obtain ⟨hOwned, hReleased⟩ := hInv.owned.releaseRobotRPCClient hTaken
    obtain ⟨hThreads, hReturned⟩ := releaseRobotRPCClient_rest s taken
    refine ⟨?_, fun t => ?_, ?_⟩
    · rw [taken_goto, hThreads]
      exact { hOwned with }
    · have hNew : (Place.returning taken.take exit).Settled (taken.take :: s.released) := ⟨List.mem_cons_self, hSettled⟩
      rw [State.goto, hThreads, hReleased]
      exact forall_update (P := fun (_ : Nat) (place : Place) => place.Settled (taken.take :: s.released)) hNew
        (fun t _ => (hInv.settled t).mono taken.take) t
    · rw [State.goto, hReturned, hReleased]
      exact fun r hr => ⟨List.mem_cons_of_mem _ (hInv.returned r hr).1, (hInv.returned r hr).2⟩
  | endExecute thread =>
    rw [ClientPool.step] at hStep
    split at hStep <;> cases hStep
    rename_i take exit hPlace
    have hSettled := hInv.settled thread
    rw [hPlace] at hSettled
    have hGone : Inv (s.goto thread .outside) := hInv.goto (hPlace ▸ rfl) trivial
    exact { hGone with
      owned := { hGone.owned with }
      returned := List.forall_mem_cons.mpr ⟨hSettled, hInv.returned⟩ }
  | setRetryTimeout timeout =>
    cases hStep
    exact { hInv with owned := { hInv.owned with } }
  | requestShutdown =>
    cases hStep
    exact { hInv with owned := { hInv.owned with } }
  | shutdown =>
    rw [ClientPool.step] at hStep
    split at hStep <;> cases hStep
    exact { hInv with owned := { hInv.owned with } }
  | killClients =>
    rw [ClientPool.step] at hStep
    split at hStep <;> cases hStep
    exact { hInv with owned := hInv.owned.killClients }

theorem exclusive (hInv : Inv s) : Exclusive s where
  alone t t' taken taken' ht ht' hSame := hInv.owned.alone t t' taken taken' ht ht' hSame
  alive t taken ht hMem := by
    obtain ⟨i, hi, hClient, -⟩ := hInv.owned.marked t taken ht
    exact (hInv.owned.gone _ hMem).2 (hClient ▸ mem_ids hi)
  deletedOnce := hInv.owned.deletedOnce
  takes take hTake := by
    rcases hInv.owned.accounted take hTake with hMem | ⟨t, taken, ht, rfl⟩
    · refine .inl ⟨List.count_eq_one_of_mem hInv.owned.releasedOnce hMem, fun t taken ht hSame => ?_⟩
      exact (hInv.owned.pending t taken ht).2 (hSame ▸ hMem)
    · exact .inr ⟨List.count_eq_zero_of_not_mem (hInv.owned.pending t taken ht).2, t, taken, ht, rfl⟩
  returned r hr :=
    ⟨List.count_eq_one_of_mem hInv.owned.releasedOnce (hInv.returned r hr).1, (hInv.returned r hr).2⟩

end Inv

/-- In every interleaving of the threads and the shutdown the pool hands out its clients exclusively. -/
theorem pool_exclusive {zombieTime : Nat} {s : State} (hReach : (machine zombieTime).Reachable s) : Exclusive s := by
  refine Inv.exclusive (Machine.ReachableWhen.invariant Inv ?_ ?_ hReach)
  · rintro s ⟨retryTimeout, rfl⟩
    exact Inv.start retryTimeout
  · exact fun s label s' hInv _ hStep => hInv.step hStep

def sampleRun : List Label :=
  [.execute 0 ⟨bytes "h", 1, true, 0⟩, .execute 1 ⟨bytes "h", 1, false, 0⟩, .getRobotRPCClient 0 fun _ => 0,
    .getRobotRPCClient 1 fun _ => 0, .call 1 true (.array [.int 1, .string []]), .judge 1 0, .releaseRobotRPCClient 1,
    .endExecute 1, .requestShutdown, .shutdown, .killClients]

theorem pool_exclusive_sampleRun : ∃ s, (machine 5).run (.start 0) sampleRun = some s ∧ s.deleted = [1] ∧
    (s.threads 0).taken = some ⟨0, 0⟩ ∧ s.returned = [(1, ⟨true, true, true⟩)] ∧ Exclusive s :=
  ⟨_, rfl, rfl, rfl, rfl, pool_exclusive (Machine.Reachable.run (.init ⟨0, rfl⟩)
    (rfl : (machine 5).run (.start 0) sampleRun = some _))⟩

end XcRos.Libros.ClientPool
