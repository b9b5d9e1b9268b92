import XcRos.Foundation.Machine
import XcRos.Libros.Param

/-! # Freshness of the parameter cache

A node with any number of threads in `set` and `getCached`, the master, and the `paramUpdate`
messages on their way from the master to the node. Every call of the master takes effect there in a
step of its own and may fail before or after that. A change of a parameter by another node is a
step of the master alone.
-/

namespace XcRos.Libros.Param

open XcRos.Foundation XcRos.Rpc

/-- A `paramUpdate` message; the master may write the name with a slash behind it. -/
structure Update where
  param : Names.Name
  slash : Bool
  value : Value

def Update.key (u : Update) : Bytes := if u.slash then u.param.1 ++ [47] else u.param.1

/-- What the holder of `g_params_mutex` is doing, and whether the master has done its part. -/
inductive Section where
  | subscribing (thread : Nat) (key : Bytes) (v : Value) (taken : Bool)
  | setting (thread : Nat) (key : Names.Name) (v : Value) (taken : Bool)

/-- Where a thread is. `locked` is inside of the section that the mutex describes. -/
inductive Call where
  | idle
  | returned (ret : Bool) (v : Value)
  | locked
  | requesting (key : Bytes) (v : Value) (useCache : Bool)
  | answered (key : Bytes) (v : Value) (useCache : Bool) (payload : Option Value)
  | storing (key : Bytes) (v : Value) (ret : Bool)

def Call.inProgress : Call → Bool
  | .idle | .returned _ _ => false
  | _ => true

def Call.Caching (key : Bytes) : Call → Prop
  | .requesting k _ useCache => k = key ∧ useCache = true
  | .answered k _ useCache _ => k = key ∧ useCache = true
  | .storing k _ _ => k = key
  | _ => False

/-- `master` gives the invalid value for a parameter that is not set. -/
structure Node where
  cache : Cache
  mutex : Option Section
  calls : Nat → Call
  inFlight : List Update
  master : Bytes → Value
  masterSubscribed : Bytes → Bool

inductive Label where
  | getCached (thread : Nat) (key : Names.Name) (v : Value)
  | subscribeParam
  | subscribed (ok : Bool)
  | getParam (thread : Nat)
  | getParamReply (thread : Nat) (arrives : Bool)
  | store (thread : Nat)
  | set (thread : Nat) (key : Names.Name) (v : Value)
  | setParam (slash : Bool)
  | setReply (ok : Bool)
  | change (key : Names.Name) (v : Value) (slash : Bool)
  | paramUpdate

namespace Node

def goto (s : Node) (t : Nat) (c : Call) : Node := { s with calls := Function.update s.calls t c }

theorem goto_calls (s : Node) (t : Nat) (c : Call) (t' : Nat) :
    (s.goto t c).calls t' = if t' = t then c else s.calls t' := Function.update_apply ..

/-- The master's part of a change: it is sent to the node if the node has subscribed. -/
def changed (s : Node) (key : Names.Name) (v : Value) (slash : Bool) : Node :=
  { s with
    master := Function.update s.master key.1 v
    inFlight := if s.masterSubscribed key.1 then s.inFlight ++ [⟨key, slash, v⟩] else s.inFlight }

theorem changed_master (s : Node) (k : Names.Name) (v : Value) (slash : Bool) (key : Bytes) :
    (s.changed k v slash).master key = if key = k.1 then v else s.master key := Function.update_apply ..

def enter (s : Node) (t : Nat) (sec : Section) : Node := { s.goto t .locked with mutex := some sec }

def leave (s : Node) (t : Nat) (c : Call) : Node := { s.goto t c with mutex := none }

/-- `getImpl` with `use_cache` up to the end of its first section or to the call of the master. -/
def getCached (s : Node) (t : Nat) (mappedKey : Bytes) (v : Value) : Node :=
  match lookup s.cache mappedKey with
  | .hit w => s.goto t (.returned true w)
  | .miss => s.goto t (.returned false v)
  | .fetch => s.goto t (.requesting mappedKey v true)
  | .subscribe =>
    { s with cache := s.cache.subscribe mappedKey }.enter t (.subscribing t mappedKey v false)

/-- What the master answers to `getParam`. -/
def payload (s : Node) (key : Bytes) : Option Value :=
  if valid (s.master key) then some (s.master key) else none

def step (s : Node) : Label → Option Node
  | .getCached t key v =>
    if s.mutex.isNone ∧ (s.calls t).inProgress = false then
      some (s.getCached t (if key.1 = [] then [47] else key.1) v)
    else none
  | .subscribeParam =>
    match s.mutex with
    | some (.subscribing t key v _) =>
      some { s with
        masterSubscribed := Function.update s.masterSubscribed key true
        mutex := some (.subscribing t key v true) }
    | _ => none
  | .subscribed ok =>
    match s.mutex with
    | some (.subscribing t key v taken) =>
      if ok then
        if taken then some (s.leave t (.requesting key v true)) else none
      else some ({ s with cache := s.cache.unsubscribe key }.leave t (.requesting key v false))
    | _ => none
  | .getParam t =>
    match s.calls t with
    | .requesting key v useCache => some (s.goto t (.answered key v useCache (s.payload key)))
    | _ => none
  | .getParamReply t arrives =>
    match s.calls t with
    | .answered key v useCache payload =>
      let ret := arrives && payload.isSome
      let v := if arrives then payload.getD v else v
      some (s.goto t (if useCache then .storing key v ret else .returned ret v))
    | _ => none
  | .store t =>
    match s.calls t with
    | .storing key v ret =>
      if s.mutex.isNone then some ({ s with cache := s.cache.store key v }.goto t (.returned ret v))
      else none
    | _ => none
  | .set t key v =>
    if s.mutex.isNone ∧ (s.calls t).inProgress = false then
      some (s.enter t (.setting t key v false))
    else none
  | .setParam slash =>
    match s.mutex with
    | some (.setting t key v _) =>
      some { s.changed key v slash with mutex := some (.setting t key v true) }
    | _ => none
  | .setReply ok =>
    match s.mutex with
    | some (.setting t key v taken) =>
      if ok then
        if taken then some ({ s with cache := s.cache.set key v }.leave t .idle) else none
      else some (s.leave t .idle)
    | _ => none
  | .change key v slash => some (s.changed key v slash)
  | .paramUpdate =>
    match s.inFlight with
    | [] => none
    | u :: rest =>
      if s.mutex.isNone then some { s with inFlight := rest, cache := s.cache.update u.key u.value }
      else none

end Node

def system : Machine Node Label where
  Init s := s.cache = .empty ∧ s.mutex = none ∧ (∀ t, s.calls t = .idle) ∧ s.inFlight = [] ∧
    ∀ key, s.masterSubscribed key = false
  step := Node.step

/-- With no call in progress and no update of the key on its way, the cached value is current. -/
def Fresh (key : Bytes) (s : Node) : Prop :=
  (∀ t, (s.calls t).inProgress = false) → (∀ u ∈ s.inFlight, u.param.1 ≠ key) →
    ∀ v, s.cache.params key = some v → v = s.master key

/-- What `getImpl` stores for the key is current, or an update of the key has still to come. -/
def StoresTimely (key : Bytes) (s : Node) : Label → Prop
  | .store t => ∀ v ret, s.calls t = .storing key v ret →
      v = s.master key ∨ ∃ u ∈ s.inFlight, u.param.1 = key
  | _ => True

section Updates

def updatesFor (key : Bytes) (q : List Update) : List Value :=
  (q.filter fun u => u.param.1 = key).map Update.value

theorem updatesFor_cons_self (u : Update) (q : List Update) :
    updatesFor u.param.1 (u :: q) = u.value :: updatesFor u.param.1 q := by
  simp [updatesFor]

theorem updatesFor_cons_of_ne {key : Bytes} {u : Update} (h : u.param.1 ≠ key) (q : List Update) :
    updatesFor key (u :: q) = updatesFor key q := by
  simp [updatesFor, h]

theorem updatesFor_concat (key : Names.Name) (q : List Update) (slash : Bool) (v : Value) :
    updatesFor key.1 (q ++ [⟨key, slash, v⟩]) = updatesFor key.1 q ++ [v] := by
  simp [updatesFor]

theorem updatesFor_concat_of_ne {key : Bytes} {u : Update} (h : u.param.1 ≠ key) (q : List Update) :
    updatesFor key (q ++ [u]) = updatesFor key q := by
  simp [updatesFor, h]

theorem getLastD_eq {l : List Value} (h : l ≠ []) (v w : Value) : l.getLastD v = l.getLastD w := by
  rw [List.getLastD_eq_getLast?, List.getLastD_eq_getLast?, List.getLast?_eq_some_getLast h]
  rfl

theorem updatesFor_changed_self (s : Node) (key : Names.Name) (v : Value) (slash : Bool) :
    updatesFor key.1 (s.changed key v slash).inFlight =
      if s.masterSubscribed key.1 then updatesFor key.1 s.inFlight ++ [v] else updatesFor key.1 s.inFlight := by
  rw [Node.changed]
  split
  · exact updatesFor_concat key _ slash v
  · rfl

theorem updatesFor_changed_of_ne {k : Names.Name} {key : Bytes} (h : k.1 ≠ key) (s : Node) (v : Value) (slash : Bool) :
    updatesFor key (s.changed k v slash).inFlight = updatesFor key s.inFlight := by
  rw [Node.changed]
  dsimp only
  split
  · exact updatesFor_concat_of_ne (u := ⟨k, slash, v⟩) h _
  · rfl

theorem updatesFor_eq_nil {key : Bytes} {q : List Update} :
    updatesFor key q = [] ↔ ∀ u ∈ q, u.param.1 ≠ key := by
  simp [updatesFor]

end Updates

section Invariant

structure Untouched (key : Bytes) (s : Node) : Prop where
  params : s.cache.params key = none
  calls : ∀ t, ¬ (s.calls t).Caching key

/-- The updates on their way bring the cached value of the key to the master's. -/
structure Coherent (key : Bytes) (s : Node) : Prop where
  unsubscribed : s.cache.subscribed key = false → Untouched key s
  subscribing : ∀ t v taken, s.mutex = some (.subscribing t key v taken) →
    s.cache.subscribed key = true ∧ Untouched key s ∧ (taken = true → s.masterSubscribed key = true)
  known : s.cache.subscribed key = true →
    s.masterSubscribed key = true ∨ ∃ t v, s.mutex = some (.subscribing t key v false)
  setting : ∀ t k v, s.mutex = some (.setting t k v true) → k.1 = key → s.masterSubscribed key = true →
    updatesFor key s.inFlight ≠ []
  unsent : s.masterSubscribed key = false → updatesFor key s.inFlight = []
  pending : updatesFor key s.inFlight ≠ [] →
    ∀ v, (updatesFor key s.inFlight).getLastD v = s.master key
  cached : ∀ v, s.cache.params key = some v → (updatesFor key s.inFlight).getLastD v = s.master key

variable {key : Bytes} {s : Node}

theorem Untouched.goto (h : Untouched key s) (t : Nat) {c : Call} (hCaching : ¬ c.Caching key) :
    Untouched key (s.goto t c) := by
  refine ⟨h.params, fun t' => ?_⟩
  rw [Node.goto_calls]
  split
  · exact hCaching
  · exact h.calls t'

namespace Coherent

theorem known_of_touched (h : Coherent key s) (hTouched : ¬ Untouched key s) :
    s.cache.subscribed key = true ∧ s.masterSubscribed key = true := by
  have hSubscribed : s.cache.subscribed key = true := by
    by_contra hNot
    exact hTouched (h.unsubscribed (Bool.eq_false_iff.mpr hNot))
  obtain hKnown | ⟨t, v, hMutex⟩ := h.known hSubscribed
  · exact ⟨hSubscribed, hKnown⟩
  · exact absurd (h.subscribing t v false hMutex).2.1 hTouched

theorem known_of_cached (h : Coherent key s) {v : Value} (hCached : s.cache.params key = some v) :
    s.cache.subscribed key = true ∧ s.masterSubscribed key = true := by
  apply h.known_of_touched
  intro hUntouched
  rw [hUntouched.params] at hCached
  cases hCached

theorem known_of_caching (h : Coherent key s) {t : Nat} (hCaching : (s.calls t).Caching key) :
    s.cache.subscribed key = true ∧ s.masterSubscribed key = true :=
  h.known_of_touched fun hUntouched => hUntouched.calls t hCaching

theorem goto (h : Coherent key s) (t : Nat) {c : Call}
    (hCaching : c.Caching key → (s.calls t).Caching key ∨ s.cache.subscribed key = true ∧ s.mutex = none) :
    Coherent key (s.goto t c) where
  unsubscribed := by
    intro hNot
    have hUntouched := h.unsubscribed hNot
    apply hUntouched.goto
    intro hNew
    obtain hOld | ⟨hSubscribed, _⟩ := hCaching hNew
    · exact hUntouched.calls t hOld
    · exact Bool.false_ne_true (hNot.symm.trans hSubscribed)
  subscribing := by
    intro t' v taken hMutex
    obtain ⟨hSubscribed, hUntouched, hTaken⟩ := h.subscribing t' v taken hMutex
    refine ⟨hSubscribed, hUntouched.goto t ?_, hTaken⟩
    intro hNew
    obtain hOld | ⟨_, hFree⟩ := hCaching hNew
    · exact hUntouched.calls t hOld
    · cases hFree.symm.trans hMutex
  known := h.known
  setting := h.setting
  unsent := h.unsent
  pending := h.pending
  cached := h.cached

theorem withCache (h : Coherent key s) {c : Cache} (hSubscribed : c.subscribed key = s.cache.subscribed key)
    (hParams : ∀ w, c.params key = some w → s.cache.params key = some w ∨
      s.cache.subscribed key = true ∧ (∀ t v taken, s.mutex ≠ some (.subscribing t key v taken)) ∧
        (updatesFor key s.inFlight).getLastD w = s.master key) : Coherent key { s with cache := c } := by
  have hNone : Untouched key s → (s.cache.subscribed key = true →
      ∃ t v taken, s.mutex = some (.subscribing t key v taken)) → Untouched key { s with cache := c } := by
    intro hUntouched hBusy
    refine ⟨?_, hUntouched.calls⟩
    by_contra hSome
    obtain ⟨w, hw⟩ := Option.ne_none_iff_exists'.mp hSome
    obtain hOld | ⟨hKey, hIdle, _⟩ := hParams w hw
    · rw [hUntouched.params] at hOld
      cases hOld
    · obtain ⟨t, v, taken, hMutex⟩ := hBusy hKey
      exact hIdle t v taken hMutex
  constructor
  · intro hNot
    have hOld : s.cache.subscribed key = false := hSubscribed.symm.trans hNot
    exact hNone (h.unsubscribed hOld) fun hKey => absurd (hOld.symm.trans hKey) Bool.false_ne_true
  · intro t v taken hMutex
    obtain ⟨hOld, hUntouched, hTaken⟩ := h.subscribing t v taken hMutex
    exact ⟨hSubscribed.trans hOld, hNone hUntouched fun _ => ⟨t, v, taken, hMutex⟩, hTaken⟩
  · exact fun hNew => h.known (hSubscribed.symm.trans hNew)
  · exact h.setting
  · exact h.unsent
  · exact h.pending
  · intro w hw
    obtain hOld | ⟨_, _, hLast⟩ := hParams w hw
    · exact h.cached w hOld
    · exact hLast

theorem withMutex (h : Coherent key s) (m : Option Section)
    (hSubscribing : ∀ t v taken, m = some (.subscribing t key v taken) →
      s.cache.subscribed key = true ∧ Untouched key s ∧ (taken = true → s.masterSubscribed key = true))
    (hKnown : s.masterSubscribed key = true ∨ (∃ t v, m = some (.subscribing t key v false)) ∨
      ∀ t v, s.mutex ≠ some (.subscribing t key v false))
    (hSetting : ∀ t k v, m = some (.setting t k v true) → k.1 = key → s.masterSubscribed key = true →
      updatesFor key s.inFlight ≠ []) : Coherent key { s with mutex := m } := by
  constructor
  · intro hNot
    exact ⟨(h.unsubscribed hNot).params, (h.unsubscribed hNot).calls⟩
  · intro t v taken hMutex
    obtain ⟨hKey, hUntouched, hTaken⟩ := hSubscribing t v taken hMutex
    exact ⟨hKey, ⟨hUntouched.params, hUntouched.calls⟩, hTaken⟩
  · intro hKey
    obtain hMaster | hNow | hNever := hKnown
    · exact Or.inl hMaster
    · exact Or.inr hNow
    · obtain hMaster | ⟨t, v, hMutex⟩ := h.known hKey
      · exact Or.inl hMaster
      · exact absurd hMutex (hNever t v)
  · exact hSetting
  · exact h.unsent
  · exact h.pending
  · exact h.cached

theorem changed (h : Coherent key s) (k : Names.Name) (v : Value) (slash : Bool) :
    Coherent key (s.changed k v slash) := by
  have hUntouched : Untouched key s → Untouched key (s.changed k v slash) :=
    fun hOld => ⟨hOld.params, hOld.calls⟩
  have hSubscribing : ∀ t w taken, s.mutex = some (.subscribing t key w taken) →
      s.cache.subscribed key = true ∧ Untouched key (s.changed k v slash) ∧
        (taken = true → s.masterSubscribed key = true) := by
    intro t w taken hMutex
    obtain ⟨hKey, hFree, hTaken⟩ := h.subscribing t w taken hMutex
    exact ⟨hKey, hUntouched hFree, hTaken⟩
  by_cases hKey : k.1 = key
  · subst hKey
    cases hMaster : s.masterSubscribed k.1 with
    | false =>
      have hQueue : updatesFor k.1 (s.changed k v slash).inFlight = [] := by
        rw [updatesFor_changed_self, hMaster, if_neg Bool.false_ne_true]
        exact h.unsent hMaster
      have hNone : ∀ w, s.cache.params k.1 ≠ some w := by
        intro w hw
        exact Bool.false_ne_true (hMaster.symm.trans (h.known_of_cached hw).2)
      exact ⟨fun hNot => hUntouched (h.unsubscribed hNot), hSubscribing, h.known,
        fun _ _ _ _ _ hNew => absurd (hMaster.symm.trans hNew) Bool.false_ne_true, fun _ => hQueue,
        fun hSome => absurd hQueue hSome, fun w hw => absurd hw (hNone w)⟩
    | true =>
      have hQueue : updatesFor k.1 (s.changed k v slash).inFlight = updatesFor k.1 s.inFlight ++ [v] := by
        rw [updatesFor_changed_self, hMaster, if_pos rfl]
      have hLast : ∀ w, (updatesFor k.1 (s.changed k v slash).inFlight).getLastD w =
          (s.changed k v slash).master k.1 := by
        intro w
        rw [hQueue, List.getLastD_concat, Node.changed_master, if_pos rfl]
      exact ⟨fun hNot => hUntouched (h.unsubscribed hNot), hSubscribing, h.known,
        fun _ _ _ _ _ _ => by rw [hQueue]; exact List.concat_ne_nil _ _,
        fun hNot => absurd (hNot.symm.trans hMaster) Bool.false_ne_true, fun _ => hLast, fun w _ => hLast w⟩
  · have hQueue : updatesFor key (s.changed k v slash).inFlight = updatesFor key s.inFlight :=
      updatesFor_changed_of_ne hKey s v slash
    have hValue : (s.changed k v slash).master key = s.master key := by
      rw [Node.changed_master, if_neg (Ne.symm hKey)]
    exact ⟨fun hNot => hUntouched (h.unsubscribed hNot), hSubscribing, h.known,
      fun t k w hMutex hSame hMaster => hQueue ▸ h.setting t k w hMutex hSame hMaster,
      fun hMaster => hQueue.trans (h.unsent hMaster),
      fun hSome w => hQueue ▸ hValue ▸ h.pending (hQueue ▸ hSome) w,
      fun w hw => hQueue ▸ hValue ▸ h.cached w hw⟩

theorem pop (h : Coherent key s) {u : Update} {rest : List Update} (hInFlight : s.inFlight = u :: rest)
    (hFree : s.mutex = none)
    (hApplied : ∀ w, s.cache.params key = some w → u.param.1 = key → w = u.value) :
    Coherent key { s with inFlight := rest } := by
  have hUntouched : Untouched key s → Untouched key { s with inFlight := rest } :=
    fun hOld => ⟨hOld.params, hOld.calls⟩
  by_cases hKey : u.param.1 = key
  · subst hKey
    have hQueue : updatesFor u.param.1 s.inFlight = u.value :: updatesFor u.param.1 rest := by
      rw [hInFlight, updatesFor_cons_self]
    have hLast : ∀ w, (updatesFor u.param.1 s.inFlight).getLastD w = (updatesFor u.param.1 rest).getLastD u.value := by
      intro w
      rw [hQueue, List.getLastD_cons]
    have hPending := h.pending (by rw [hQueue]; exact List.cons_ne_nil _ _)
    constructor
    · exact fun hNot => hUntouched (h.unsubscribed hNot)
    · intro t v taken hMutex
      cases hFree.symm.trans hMutex
    · exact h.known
    · intro t k v hMutex
      cases hFree.symm.trans hMutex
    · intro hMaster
      have hNil := h.unsent hMaster
      rw [hQueue] at hNil
      cases hNil
    · intro hSome v
      exact (getLastD_eq hSome v u.value).trans ((hLast v).symm.trans (hPending v))
    · intro w hw
      rw [hApplied w hw rfl]
      exact (hLast w).symm.trans (hPending w)
  · have hQueue : updatesFor key rest = updatesFor key s.inFlight := by
      rw [hInFlight, updatesFor_cons_of_ne hKey]
    exact ⟨fun hNot => hUntouched (h.unsubscribed hNot),
      fun t v taken hMutex => (nomatch hFree.symm.trans hMutex), h.known,
      fun t k w hMutex hSame hMaster => hQueue ▸ h.setting t k w hMutex hSame hMaster,
      fun hMaster => hQueue.trans (h.unsent hMaster),
      fun hSome w => hQueue ▸ h.pending (hQueue ▸ hSome) w,
      fun w hw => hQueue ▸ h.cached w hw⟩

theorem getCached (h : Coherent key s) (hFree : s.mutex = none) (t : Nat) (k : Bytes) (v : Value) :
    Coherent key (s.getCached t k v) := by
  rw [Node.getCached]
  split
  · exact h.goto t (fun hNew => hNew.elim)
  · exact h.goto t (fun hNew => hNew.elim)
  · rename_i hLookup
    apply h.goto t
    rintro ⟨rfl, _⟩
    exact Or.inr ⟨subscribed_of_lookup_fetch hLookup, hFree⟩
  · rename_i hLookup
    by_cases hKey : k = key
    · subst hKey
      have hUntouched := h.unsubscribed (subscribed_of_lookup_subscribe hLookup)
      have hNew : Untouched k (s.goto t .locked) := hUntouched.goto t id
      constructor
      · intro _
        exact ⟨hNew.params, hNew.calls⟩
      · rintro t' v' taken hMutex
        cases hMutex
        exact ⟨Function.update_self .., ⟨hNew.params, hNew.calls⟩, fun hTaken => by cases hTaken⟩
      · exact fun _ => Or.inr ⟨t, v, rfl⟩
      · rintro t' k' v' hMutex
        cases hMutex
      · exact h.unsent
      · exact h.pending
      · exact h.cached
    · have hCache : Coherent key { s with cache := s.cache.subscribe k } :=
        h.withCache (Function.update_of_ne (Ne.symm hKey) ..) (fun w hw => Or.inl hw)
      have hLocked := hCache.goto t (c := .locked) (fun hNew => hNew.elim)
      apply hLocked.withMutex
      · rintro t' v' taken hMutex
        cases hMutex
        exact absurd rfl hKey
      · refine Or.inr (Or.inr fun t' v' hMutex => ?_)
        cases hFree.symm.trans hMutex
      · rintro t' k' v' hMutex
        cases hMutex

theorem subscribeParam (h : Coherent key s) {t : Nat} {k : Bytes} {v : Value} {taken : Bool}
    (hMutex : s.mutex = some (.subscribing t k v taken)) :
    Coherent key { s with
      masterSubscribed := Function.update s.masterSubscribed k true
      mutex := some (.subscribing t k v true) } := by
  have hGrows : s.masterSubscribed key = true → Function.update s.masterSubscribed k true key = true := by
    intro hOld
    rw [Function.update_apply]
    split
    · rfl
    · exact hOld
  have hMaster : Coherent key { s with masterSubscribed := Function.update s.masterSubscribed k true } := by
    constructor
    · intro hNot
      exact ⟨(h.unsubscribed hNot).params, (h.unsubscribed hNot).calls⟩
    · intro t' v' taken' hSection
      obtain ⟨hKey, hUntouched, hTaken⟩ := h.subscribing t' v' taken' hSection
      exact ⟨hKey, ⟨hUntouched.params, hUntouched.calls⟩, fun hYes => hGrows (hTaken hYes)⟩
    · intro hKey
      obtain hOld | hSection := h.known hKey
      · exact Or.inl (hGrows hOld)
      · exact Or.inr hSection
    · intro t' k' v' hSection
      cases hMutex.symm.trans hSection
    · intro hNot
      apply h.unsent
      exact Bool.eq_false_iff.mpr fun hOld => Bool.false_ne_true (hNot.symm.trans (hGrows hOld))
    · exact h.pending
    · exact h.cached
  apply hMaster.withMutex
  · rintro t' v' taken' hSection
    cases hSection
    obtain ⟨hKey, hUntouched, _⟩ := h.subscribing t v taken hMutex
    exact ⟨hKey, ⟨hUntouched.params, hUntouched.calls⟩, fun _ => Function.update_self ..⟩
  · by_cases hKey : k = key
    · subst hKey
      exact Or.inl (Function.update_self ..)
    · refine Or.inr (Or.inr fun t' v' hSection => ?_)
      cases hMutex.symm.trans hSection
      exact hKey rfl
  · rintro t' k' v' hSection
    cases hSection

theorem unlock (h : Coherent key s)
    (hKnown : ∀ t v, s.mutex = some (.subscribing t key v false) → s.masterSubscribed key = true) :
    Coherent key { s with mutex := none } := by
  apply h.withMutex
  · rintro t v taken hMutex
    cases hMutex
  · cases hMaster : s.masterSubscribed key with
    | true => exact Or.inl rfl
    | false =>
      refine Or.inr (Or.inr fun t v hMutex => ?_)
      exact Bool.false_ne_true (hMaster.symm.trans (hKnown t v hMutex))
  · rintro t k' v hMutex
    cases hMutex

theorem subscribed (h : Coherent key s) {t : Nat} {k : Bytes} {v : Value}
    (hMutex : s.mutex = some (.subscribing t k v true)) :
    Coherent key (s.leave t (.requesting k v true)) := by
  have hFree : Coherent key { s with mutex := none } := by
    apply h.unlock
    intro t' v' hSection
    cases hMutex.symm.trans hSection
  refine hFree.goto t (c := .requesting k v true) ?_
  rintro ⟨rfl, _⟩
  exact Or.inr ⟨(h.subscribing t v true hMutex).1, rfl⟩

theorem notSubscribed (h : Coherent key s) {t : Nat} {k : Bytes} {v : Value} {taken : Bool}
    (hMutex : s.mutex = some (.subscribing t k v taken)) :
    Coherent key ({ s with cache := s.cache.unsubscribe k }.leave t (.requesting k v false)) := by
  have hNotCaching : ¬ (Call.requesting k v false).Caching key := fun hNew => Bool.false_ne_true hNew.2
  by_cases hKey : k = key
  · subst hKey
    have hUntouched := (h.subscribing t v taken hMutex).2.1.goto t hNotCaching
    constructor
    · exact fun _ => ⟨hUntouched.params, hUntouched.calls⟩
    · rintro t' v' taken' hSection
      cases hSection
    · intro hSubscribed
      have hErased : (s.cache.unsubscribe k).subscribed k = false := Function.update_self ..
      exact absurd (hErased.symm.trans hSubscribed) Bool.false_ne_true
    · rintro t' k' v' hSection
      cases hSection
    · exact h.unsent
    · exact h.pending
    · exact h.cached
  · have hCache : Coherent key { s with cache := s.cache.unsubscribe k } :=
      h.withCache (Function.update_of_ne (Ne.symm hKey) ..) (fun w hw => Or.inl hw)
    have hFree : Coherent key { s with cache := s.cache.unsubscribe k, mutex := none } := by
      apply hCache.unlock
      intro t' v' hSection
      cases hMutex.symm.trans hSection
      exact absurd rfl hKey
    exact hFree.goto t (fun hNew => absurd hNew hNotCaching)

theorem store (h : Coherent key s) (hFree : s.mutex = none) {t : Nat} {k : Bytes} {v : Value} {ret : Bool}
    (hCall : s.calls t = .storing k v ret)
    (hTimely : k = key → v = s.master key ∨ ∃ u ∈ s.inFlight, u.param.1 = key) :
    Coherent key ({ s with cache := s.cache.store k v }.goto t (.returned ret v)) := by
  have hCache : Coherent key { s with cache := s.cache.store k v } := by
    refine h.withCache (c := s.cache.store k v) rfl ?_
    intro w hw
    by_cases hKey : k = key
    · subst hKey
      rw [Cache.store_params_self] at hw
      cases hw
      have hCaching : (s.calls t).Caching k := by
        rw [hCall]
        exact rfl
      refine Or.inr ⟨(h.known_of_caching hCaching).1, ?_, ?_⟩
      · intro t' v' taken hMutex
        cases hFree.symm.trans hMutex
      · by_cases hNone : updatesFor k s.inFlight = []
        · obtain hCurrent | ⟨u, hu, hParam⟩ := hTimely rfl
          · rw [hNone, hCurrent]
            rfl
          · exact absurd hParam (updatesFor_eq_nil.mp hNone u hu)
        · exact h.pending hNone v
    · rw [Cache.store_params_of_ne (Ne.symm hKey)] at hw
      exact Or.inl hw
  exact hCache.goto t (fun hNew => hNew.elim)

theorem lockForSet (h : Coherent key s) (hFree : s.mutex = none) (t : Nat) (k : Names.Name) (v : Value) :
    Coherent key (s.enter t (.setting t k v false)) := by
  have hLocked := h.goto t (c := .locked) (fun hNew => hNew.elim)
  apply hLocked.withMutex
  · rintro t' v' taken hMutex
    cases hMutex
  · refine Or.inr (Or.inr fun t' v' hMutex => ?_)
    cases hFree.symm.trans hMutex
  · rintro t' k' v' hMutex
    cases hMutex

theorem setParam (h : Coherent key s) {t : Nat} {k : Names.Name} {v : Value} {taken : Bool}
    (hMutex : s.mutex = some (.setting t k v taken)) (slash : Bool) :
    Coherent key { s.changed k v slash with mutex := some (.setting t k v true) } := by
  apply (h.changed k v slash).withMutex
  · rintro t' v' taken' hSection
    cases hSection
  · refine Or.inr (Or.inr fun t' v' hSection => ?_)
    cases hMutex.symm.trans hSection
  · rintro t' k' v' hSection rfl hMaster
    cases hSection
    have hOld : s.masterSubscribed k.1 = true := hMaster
    rw [updatesFor_changed_self, if_pos hOld]
    exact List.concat_ne_nil _ _

theorem setReply (h : Coherent key s) {t : Nat} {k : Names.Name} {v : Value}
    (hMutex : s.mutex = some (.setting t k v true)) :
    Coherent key ({ s with cache := s.cache.set k v }.leave t .idle) := by
  have hIdle : ∀ t' v' taken, s.mutex ≠ some (.subscribing t' key v' taken) := by
    intro t' v' taken hSection
    cases hMutex.symm.trans hSection
  have hCache : Coherent key { s with cache := s.cache.set k v } := by
    apply h.withCache (congrFun (Cache.set_subscribed s.cache k v) key)
    intro w hw
    obtain ⟨rfl, hSubscribed, rfl⟩ | ⟨hOld, _⟩ := Cache.set_params hw
    · obtain hMaster | ⟨t', v', hSection⟩ := h.known hSubscribed
      · exact Or.inr ⟨hSubscribed, hIdle, h.pending (h.setting t k w hMutex rfl hMaster) w⟩
      · exact absurd hSection (hIdle t' v' false)
    · exact Or.inl hOld
  have hFree : Coherent key { s with cache := s.cache.set k v, mutex := none } :=
    hCache.unlock fun t' v' hSection => absurd hSection (hIdle t' v' false)
  exact hFree.goto t (fun hNew => hNew.elim)

theorem setFailed (h : Coherent key s) {t : Nat} {k : Names.Name} {v : Value} {taken : Bool}
    (hMutex : s.mutex = some (.setting t k v taken)) : Coherent key (s.leave t .idle) := by
  have hFree : Coherent key { s with mutex := none } := by
    apply h.unlock
    intro t' v' hSection
    cases hMutex.symm.trans hSection
  exact hFree.goto t (fun hNew => hNew.elim)

theorem paramUpdate (h : Coherent key s) (hKey : key ≠ []) (hFree : s.mutex = none) {u : Update}
    {rest : List Update} (hInFlight : s.inFlight = u :: rest) (hClean : Names.clean key = key) :
    Coherent key { s with inFlight := rest, cache := s.cache.update u.key u.value } := by
  have hSent : u.param.1 = key → Names.clean u.key = key := by
    rintro rfl
    rw [Update.key]
    split
    · exact Names.clean_append_slash hClean
    · exact hClean
  have hIdle : ∀ t' v' taken, s.mutex ≠ some (.subscribing t' key v' taken) := by
    intro t' v' taken hSection
    cases hFree.symm.trans hSection
  have hCache : Coherent key { s with cache := s.cache.update u.key u.value } := by
    apply h.withCache (congrFun (Cache.set_subscribed s.cache _ _) key)
    intro w hw
    obtain ⟨hCleaned, hSubscribed, rfl⟩ | ⟨hOld, _⟩ := Cache.set_params hw
    · have hParam : u.param.1 = key := u.param.2.clean_eq hKey u.slash hCleaned.symm
      have hQueue : updatesFor key s.inFlight = u.value :: updatesFor key rest := by
        rw [hInFlight, ← hParam, updatesFor_cons_self]
      refine Or.inr ⟨hSubscribed, hIdle, h.pending ?_ u.value⟩
      rw [hQueue]
      exact List.cons_ne_nil _ _
    · exact Or.inl hOld
  apply hCache.pop hInFlight hFree
  intro w hw hParam
  have hw' : (s.cache.set (Names.clean u.key) u.value).params key = some w := hw
  obtain ⟨_, _, rfl⟩ | ⟨hOld, hNot⟩ := Cache.set_params hw'
  · rfl
  · exact absurd ⟨(hSent hParam).symm, (h.known_of_cached hOld).1⟩ hNot

end Coherent

theorem coherent_of_init (h : system.Init s) : Coherent key s := by
  obtain ⟨hCache, hMutex, hCalls, hInFlight, hMaster⟩ := h
  have hUntouched : Untouched key s := by
    constructor
    · rw [hCache]
      rfl
    · intro t
      rw [hCalls t]
      exact id
  have hQueue : updatesFor key s.inFlight = [] := by
    rw [hInFlight]
    rfl
  constructor
  · exact fun _ => hUntouched
  · intro t v taken hSection
    cases hMutex.symm.trans hSection
  · intro hSubscribed
    rw [hCache] at hSubscribed
    cases hSubscribed
  · intro t k v hSection
    cases hMutex.symm.trans hSection
  · exact fun _ => hQueue
  · exact fun hSome => absurd hQueue hSome
  · intro v hCached
    cases hUntouched.params.symm.trans hCached

theorem coherent_step {a : Label} {s' : Node} (hEmpty : key ≠ []) (hClean : Names.clean key = key)
    (h : Coherent key s) (hTimely : StoresTimely key s a) (hStep : s.step a = some s') :
    Coherent key s' := by
  cases a with
  | getCached t k v =>
    simp only [Node.step] at hStep
    split at hStep
    · rename_i hGuard
      cases hStep
      exact h.getCached (Option.isNone_iff_eq_none.mp hGuard.1) t _ v
    · cases hStep
  | subscribeParam =>
    simp only [Node.step] at hStep
    split at hStep
    · rename_i hMutex
      cases hStep
      exact h.subscribeParam hMutex
    · cases hStep
  | subscribed ok =>
    simp only [Node.step] at hStep
    split at hStep
    · rename_i t k v taken hMutex
      cases ok with
      | false =>
        cases hStep
        exact h.notSubscribed hMutex
      | true =>
        cases taken with
        | false => cases hStep
        | true =>
          cases hStep
          exact h.subscribed hMutex
    · cases hStep
  | getParam t =>
    simp only [Node.step] at hStep
    split at hStep
    · rename_i k v useCache hCall
      cases hStep
      apply h.goto t
      intro hNew
      left
      rw [hCall]
      exact hNew
    · cases hStep
  | getParamReply t arrives =>
    simp only [Node.step] at hStep
    split at hStep
    · rename_i k v useCache payload hCall
      cases hStep
      apply h.goto t
      intro hNew
      left
      rw [hCall]
      cases useCache with
      | false => exact hNew.elim
      | true => exact ⟨hNew, rfl⟩
    · cases hStep
  | store t =>
    simp only [Node.step] at hStep
    split at hStep
    · rename_i k v ret hCall
      split at hStep
      · rename_i hFree
        cases hStep
        apply h.store (Option.isNone_iff_eq_none.mp hFree) hCall
        rintro rfl
        exact hTimely v ret hCall
      · cases hStep
    · cases hStep
  | set t k v =>
    simp only [Node.step] at hStep
    split at hStep
    · rename_i hGuard
      cases hStep
      exact h.lockForSet (Option.isNone_iff_eq_none.mp hGuard.1) t k v
    · cases hStep
  | setParam slash =>
    simp only [Node.step] at hStep
    split at hStep
    · rename_i hMutex
      cases hStep
      exact h.setParam hMutex slash
    · cases hStep
  | setReply ok =>
    simp only [Node.step] at hStep
    split at hStep
    · rename_i t k v taken hMutex
      cases ok with
      | false =>
        cases hStep
        exact h.setFailed hMutex
      | true =>
        cases taken with
        | false => cases hStep
        | true =>
          cases hStep
          exact h.setReply hMutex
    · cases hStep
  | change k v slash =>
    cases hStep
    exact h.changed k v slash
  | paramUpdate =>
    simp only [Node.step] at hStep
    split at hStep
    · cases hStep
    · rename_i u rest hInFlight
      split at hStep
      · rename_i hFree
        cases hStep
        exact h.paramUpdate hEmpty (Option.isNone_iff_eq_none.mp hFree) hInFlight hClean
      · cases hStep

end Invariant

/-- The cache is fresh in every run in which `getImpl` never stores what is already outdated. -/
theorem fresh_of_storesTimely {key : Bytes} (hEmpty : key ≠ []) (hClean : Names.clean key = key) {s : Node}
    (hReach : system.ReachableWhen (StoresTimely key) s) : Fresh key s := by
  have hCoherent : Coherent key s :=
    hReach.invariant (Coherent key) (fun _ hInit => coherent_of_init hInit)
      (fun _ _ _ hInv hTimely hStep => coherent_step hEmpty hClean hInv hTimely hStep)
  intro _ hNone v hCached
  have hLast := hCoherent.cached v hCached
  rwa [updatesFor_eq_nil.mpr hNone] at hLast

theorem outdated_of_not_storesTimely {key : Bytes} {s s' : Node} {t : Nat}
    (h : ¬ StoresTimely key s (.store t)) (hStep : s.step (.store t) = some s') :
    (∃ v, s'.cache.params key = some v ∧ v ≠ s'.master key) ∧ ∀ u ∈ s'.inFlight, u.param.1 ≠ key := by
  simp only [StoresTimely, not_forall, not_or, not_exists, not_and] at h
  obtain ⟨v, ret, hCall, hOutdated, hNone⟩ := h
  simp only [Node.step, hCall] at hStep
  split at hStep
  · cases hStep
    exact ⟨⟨v, Cache.store_params_self .., hOutdated⟩, hNone⟩
  · cases hStep

section Runs

def sampleName : Names.Name := ⟨bytes "/speed", by decide⟩

def sampleStart : Node where
  cache := .empty
  mutex := none
  calls _ := .idle
  inFlight := []
  master _ := .int 1
  masterSubscribed _ := false

theorem sampleStart_init : system.Init sampleStart := ⟨rfl, rfl, fun _ => rfl, rfl, fun _ => rfl⟩

/-- A first `getCached` whose value is changed by another node while the answer is on its way. -/
def sampleFetch : List Label :=
  [.getCached 0 sampleName .invalid, .subscribeParam, .subscribed true, .getParam 0,
    .change sampleName (.int 2) true]

theorem not_store_timely {a : Label} (h : ∀ t, a ≠ .store t) (key : Bytes) (s : Node) :
    StoresTimely key s a := by
  cases a with
  | store t => exact absurd rfl (h t)
  | _ => exact trivial

def sampleAnswered : Node :=
  (system.run sampleStart (sampleFetch ++ [.getParamReply 0 true])).getD sampleStart

def sampleStored : Node := (system.step sampleAnswered (.store 0)).getD sampleStart

/-- The update comes after the store, and brings the new value. -/
theorem fresh_update_last : ∃ s, Fresh sampleName.1 s ∧
    system.run sampleStart (sampleFetch ++ [.getParamReply 0 true, .store 0, .paramUpdate]) = some s ∧
      s.cache.params sampleName.1 = some (.int 2) := by
  have hStart : system.ReachableWhen (StoresTimely sampleName.1) sampleStart := .init sampleStart_init
  have hAnswered : system.ReachableWhen (StoresTimely sampleName.1) sampleAnswered := by
    apply hStart.run (fun a ha s => ?_) (rfl : system.run sampleStart
      (sampleFetch ++ [.getParamReply 0 true]) = some _)
    apply not_store_timely
    rintro t rfl
    simp [sampleFetch] at ha
  have hTimely : StoresTimely sampleName.1 sampleAnswered (.store 0) :=
    fun _ _ _ => Or.inr ⟨⟨sampleName, true, .int 2⟩, List.mem_singleton.mpr rfl, rfl⟩
  have hStored : system.ReachableWhen (StoresTimely sampleName.1) sampleStored :=
    hAnswered.step hTimely rfl
  have hUpdated := hStored.step (a := .paramUpdate) (not_store_timely (fun _ h => by cases h) _ _) rfl
  exact ⟨_, fresh_of_storesTimely (by decide) (by decide) hUpdated, rfl, rfl⟩

def sampleStale : Node :=
  (system.run sampleStart (sampleFetch ++ [.paramUpdate, .getParamReply 0 true, .store 0])).getD sampleStart

/-- The update comes before the store, which then brings the old value back for good. -/
theorem stale_update_first : ∃ s, system.Reachable s ∧ ¬ Fresh sampleName.1 s := by
  have hStart : system.Reachable sampleStart := .init sampleStart_init
  refine ⟨sampleStale, Machine.Reachable.run hStart (rfl : system.run sampleStart
    (sampleFetch ++ [.paramUpdate, .getParamReply 0 true, .store 0]) = some _), ?_⟩
  intro hFresh
  have hIdle : ∀ t, (sampleStale.calls t).inProgress = false := by
    intro t
    cases t with
    | zero => rfl
    | succ t => rfl
  have hStale : Value.int 1 = Value.int 2 := hFresh hIdle (fun u hu => by cases hu) _ rfl
  simp at hStale

end Runs

end XcRos.Libros.Param
