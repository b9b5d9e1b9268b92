import Mathlib.Data.Bool.AllAny
import XcRos.Foundation.Machine
import XcRos.Libros.ParamTree

/-! # Coherence of the parameter cache

One thread of a node in `set`, `del` and `getCached`, each run to its end, the master with its tree,
and the `paramUpdate` messages on their way. Any change of the tree by others is a step as well.
-/

namespace XcRos.Libros.ParamCoherence

open XcRos.Foundation XcRos.Rpc
open XcRos.Libros.Param (Cache Path valid valueAt assign remove lookup)

/-- A `paramUpdate` message; the master may write the name with a slash behind it. -/
structure Update where
  path : Path
  slash : Bool
  value : Value

def Update.key (u : Update) : Bytes := if u.slash then u.path.name ++ [47] else u.path.name

/-- A key that `set` and `del` have resolved: an empty one to the slash, and `/` to the empty name. -/
structure Key where
  path : Path
  slash : Bool

def Key.mapped (key : Key) : Bytes := if key.path = [] ∧ key.slash then [47] else key.path.name

structure Node where
  cache : Cache
  master : Value
  subscribers : Path → Bool
  inFlight : List Update

/-- `told` lists the parameters of which the master sends an update, if they are subscribed. -/
inductive Label where
  | set (key : Key) (v : Value) (told : List (Path × Bool))
  | del (key : Key) (told : List (Path × Bool))
  | change (tree : Value) (told : List (Path × Bool))
  | getCached (p : Path) (v : Value)
  | update

def Label.told : Label → List (Path × Bool)
  | .set _ _ told | .del _ told | .change _ told => told
  | _ => []

namespace Node

def stored (s : Node) (p : Path) : Value := valueAt s.master p

def publish (s : Node) (tree : Value) (told : List (Path × Bool)) : Node :=
  { s with
    master := tree
    inFlight := s.inFlight ++
      (told.filter fun t => s.subscribers t.1).map fun t => ⟨t.1, t.2, valueAt tree t.1⟩ }

/-- The call of `getParam` and what `getImpl` does with its result. -/
def fetch (s : Node) (p : Path) (v : Value) : Node × Bool × Value :=
  let ret := valid (s.stored p)
  let v := if ret then s.stored p else v
  ({ s with cache := s.cache.store p.cacheKey v }, ret, v)

def subscribeParam (s : Node) (p : Path) : Node :=
  { s with
    cache := s.cache.subscribe p.cacheKey
    subscribers := Function.update s.subscribers p true }

/-- `getImpl` with `use_cache`, when the master answers; `v` is what the caller's variable holds. -/
def getCached (s : Node) (p : Path) (v : Value) : Node × Bool × Value :=
  match lookup s.cache p.cacheKey with
  | .hit w => (s, true, w)
  | .miss => (s, false, v)
  | .fetch => s.fetch p v
  | .subscribe => (s.subscribeParam p).fetch p v

def after (s : Node) : Label → Value
  | .set key v _ => assign s.master key.path v
  | .del key _ => if valid (s.stored key.path) then remove s.master key.path else s.master
  | .change tree _ => tree
  | _ => s.master

def step (s : Node) : Label → Option Node
  | .set key v told =>
    some { s.publish (s.after (.set key v told)) told with cache := s.cache.set key.mapped v }
  | .del key told =>
    let s := { s with cache := (s.cache.unsubscribe key.mapped).erase key.mapped }
    some (s.publish (s.after (.del key told)) told)
  | .change tree told => some (s.publish tree told)
  | .getCached p v => some (s.getCached p v).1
  | .update =>
    match s.inFlight with
    | [] => none
    | u :: rest => some { s with inFlight := rest, cache := s.cache.update u.key u.value }

def Awaits (s : Node) (p : Path) : Prop := ∃ u ∈ s.inFlight, u.path = p

/-- `getCached` succeeds exactly if the master stores the parameter, and then gives its value. -/
def ReturnsStored (s : Node) (p : Path) : Prop :=
  ∀ v, (s.getCached p v).2.1 = valid (s.stored p) ∧
    (valid (s.stored p) = true → (s.getCached p v).2.2 = s.stored p)

end Node

def system : Machine Node Label where
  Init s := s.cache = .empty ∧ (∀ p, s.subscribers p = false) ∧ s.inFlight = []
  step := Node.step

/-- The master tells the node of every subscribed parameter whose value changes. -/
def Told (s : Node) (a : Label) : Prop :=
  ∀ p, s.subscribers p = true → valueAt (s.after a) p ≠ s.stored p → ∃ t ∈ a.told, t.1 = p

/-- No change goes by a root that is cached, and no parameter that is not set is asked for with a
variable that holds a value. -/
def Careful (s : Node) : Label → Prop
  | .set key v told =>
    s.cache.params [47] = none ∨ key.mapped = [47] ∨ s.after (.set key v told) = s.master
  | .del key told => s.cache.params [47] = none ∨ key.mapped = [47] ∨ s.after (.del key told) = s.master
  | .change tree _ => s.cache.params [47] = none ∨ tree = s.master
  | .getCached p v => s.cache.params p.cacheKey = none → valid (s.stored p) = false → valid v = false
  | .update => True

/-- The parameters of which a step itself brings the cache up to date, before any update arrives. -/
def Settles (p : Path) : Label → Prop
  | .set key _ _ => p <+: key.path
  | .del key _ => p = key.path
  | _ => False

section Settle

def settle (p : Path) (w : Value) (q : List Update) : Value :=
  q.foldl (fun w u => if u.path = p then u.value else w) w

variable {p : Path}

theorem settle_cons_self (w : Value) {u : Update} (h : u.path = p) (q : List Update) :
    settle p w (u :: q) = settle p u.value q := by
  rw [settle, List.foldl_cons, if_pos h, settle]

theorem settle_cons_of_ne (w : Value) {u : Update} (h : u.path ≠ p) (q : List Update) :
    settle p w (u :: q) = settle p w q := by
  rw [settle, List.foldl_cons, if_neg h, settle]

theorem settle_append (w : Value) (q q' : List Update) : settle p w (q ++ q') = settle p (settle p w q) q' :=
  List.foldl_append

theorem settle_of_forall_ne (w : Value) {q : List Update} (h : ∀ u ∈ q, u.path ≠ p) : settle p w q = w := by
  induction q with
  | nil => rfl
  | cons u q ih =>
    rw [settle_cons_of_ne w (h u List.mem_cons_self), ih fun u' hu' => h u' (List.mem_cons_of_mem u hu')]

theorem settle_eq_settle {q : List Update} (h : ∃ u ∈ q, u.path = p) (w w' : Value) :
    settle p w q = settle p w' q := by
  induction q generalizing w w' with
  | nil =>
    obtain ⟨u, hu, _⟩ := h
    cases hu
  | cons u q ih =>
    by_cases hu : u.path = p
    · rw [settle_cons_self w hu, settle_cons_self w' hu]
    · obtain ⟨u', hMem, hPath⟩ := h
      obtain rfl | hTail := List.mem_cons.mp hMem
      · exact absurd hPath hu
      · rw [settle_cons_of_ne w hu, settle_cons_of_ne w' hu, ih ⟨u', hTail, hPath⟩ w w']

theorem settle_of_forall_eq {q : List Update} {x : Value} (h : ∃ u ∈ q, u.path = p)
    (hAll : ∀ u ∈ q, u.path = p → u.value = x) (w : Value) : settle p w q = x := by
  induction q generalizing w with
  | nil =>
    obtain ⟨u, hu, _⟩ := h
    cases hu
  | cons u q ih =>
    have hTailAll : ∀ u' ∈ q, u'.path = p → u'.value = x := fun u' hu' => hAll u' (List.mem_cons_of_mem u hu')
    by_cases hTail : ∃ u' ∈ q, u'.path = p
    · rw [settle, List.foldl_cons]
      exact ih hTail hTailAll _
    · obtain ⟨u', hMem, hPath⟩ := h
      obtain rfl | hIn := List.mem_cons.mp hMem
      · rw [settle_cons_self w hPath, settle_of_forall_ne _ fun u'' hu'' hp => hTail ⟨u'', hu'', hp⟩]
        exact hAll _ List.mem_cons_self hPath
      · exact absurd ⟨u', hIn, hPath⟩ hTail

end Settle

section Invariant

/-- The updates on their way bring the cached value of the parameter to the master's; the root, of
which no update is taken, holds it already. -/
structure Coherent (p : Path) (s : Node) : Prop where
  subscribed : ∀ w, s.cache.params p.cacheKey = some w → s.cache.subscribed p.cacheKey = true
  known : s.cache.subscribed p.cacheKey = true → s.subscribers p = true
  sent : s.Awaits p → s.subscribers p = true
  pending : s.Awaits p → ∀ w, settle p w s.inFlight = s.stored p
  cached : p ≠ [] → ∀ w, s.cache.params p.cacheKey = some w → settle p w s.inFlight = s.stored p
  root : p = [] → ∀ w, s.cache.params p.cacheKey = some w → w = s.stored p

variable {p : Path} {s s' : Node}

theorem Key.path_eq {key : Key} (h : key.mapped = p.cacheKey) : key.path = p := by
  rw [Key.mapped] at h
  split at h
  · rename_i hRoot
    rw [hRoot.1]
    exact Path.cacheKey_injective h
  · cases p with
    | nil => exact absurd h (Path.name_ne_root key.path)
    | cons seg p => exact Path.name_injective h

theorem Key.mapped_of_ne {key : Key} (h : key.path ≠ []) : key.mapped = key.path.name :=
  if_neg fun hRoot => h hRoot.1

theorem Update.clean_key (u : Update) : Names.clean u.key = u.path.name := by
  rw [Update.key]
  split
  · exact Path.clean_name_slash u.path
  · exact Path.clean_name u.path

theorem coherent_of_init (h : system.Init s) : Coherent p s := by
  obtain ⟨hCache, hSubscribers, hInFlight⟩ := h
  have hNone : ∀ w, s.cache.params p.cacheKey ≠ some w := by
    intro w hw
    rw [hCache] at hw
    cases hw
  have hIdle : ¬ s.Awaits p := by
    rintro ⟨u, hu, _⟩
    rw [hInFlight] at hu
    cases hu
  constructor
  · exact fun w hw => absurd hw (hNone w)
  · intro hSubscribed
    rw [hCache] at hSubscribed
    cases hSubscribed
  · exact fun h => absurd h hIdle
  · exact fun h => absurd h hIdle
  · exact fun _ w hw => absurd hw (hNone w)
  · exact fun _ w hw => absurd hw (hNone w)

theorem returnsStored_iff : s.ReturnsStored p ↔
    (s.cache.subscribed p.cacheKey = true → ∀ w, s.cache.params p.cacheKey = some w → w = s.stored p) := by
  have hFetch : ∀ (t : Node) (v : Value), t.master = s.master → (t.fetch p v).2.1 = valid (s.stored p) ∧
      (valid (s.stored p) = true → (t.fetch p v).2.2 = s.stored p) := by
    intro t v hMaster
    have hStored : t.stored p = s.stored p := congrArg (fun tree => valueAt tree p) hMaster
    refine ⟨congrArg valid hStored, fun hValid => ?_⟩
    rw [Node.fetch, hStored]
    exact if_pos hValid
  constructor
  · intro h hSubscribed w hw
    have hReturns := h .invalid
    rw [Node.getCached, lookup, if_pos hSubscribed, hw] at hReturns
    dsimp only at hReturns
    cases hValid : valid w with
    | true =>
      rw [hValid] at hReturns
      exact hReturns.2 hReturns.1.symm
    | false =>
      rw [hValid] at hReturns
      have hStored : valid (s.stored p) = false := hReturns.1.symm
      rw [Param.eq_invalid hValid, Param.eq_invalid hStored]
  · intro h v
    cases hSubscribed : s.cache.subscribed p.cacheKey with
    | false =>
      rw [Node.getCached, lookup, if_neg (Bool.eq_false_iff.mp hSubscribed)]
      exact hFetch (s.subscribeParam p) v rfl
    | true =>
      rw [Node.getCached, lookup, if_pos hSubscribed]
      cases hCached : s.cache.params p.cacheKey with
      | none => exact hFetch s v rfl
      | some w =>
        have hw := h hSubscribed w hCached
        cases hValid : valid w with
        | true =>
          simp only [hValid, if_true]
          exact ⟨(hw ▸ hValid).symm, fun _ => hw⟩
        | false =>
          have hStored : valid (s.stored p) = false := hw ▸ hValid
          simp only [hValid, hStored, Bool.false_eq_true, if_false, true_and]
          exact fun h => absurd h (by decide)

namespace Coherent

theorem params_of_unsubscribed (h : Coherent p s) (hNot : s.cache.subscribed p.cacheKey = false) :
    s.cache.params p.cacheKey = none := by
  cases hParams : s.cache.params p.cacheKey with
  | none => rfl
  | some w => exact absurd (hNot.symm.trans (h.subscribed w hParams)) Bool.false_ne_true

theorem returnsStored (h : Coherent p s) (hIdle : ¬ s.Awaits p) : s.ReturnsStored p := by
  rw [returnsStored_iff]
  intro _ w hw
  cases p with
  | nil => exact h.root rfl w hw
  | cons seg p =>
    have hSettled := h.cached (List.cons_ne_nil seg p) w hw
    rwa [settle_of_forall_ne w fun u hu hPath => hIdle ⟨u, hu, hPath⟩] at hSettled

theorem settle_stored (h : Coherent p s) : settle p (s.stored p) s.inFlight = s.stored p := by
  by_cases hAwaits : s.Awaits p
  · exact h.pending hAwaits _
  · exact settle_of_forall_ne _ fun u hu hPath => hAwaits ⟨u, hu, hPath⟩

theorem withCache (h : Coherent p s) {c : Cache}
    (hSubscribed : ∀ w, c.params p.cacheKey = some w → c.subscribed p.cacheKey = true)
    (hKnown : c.subscribed p.cacheKey = true → s.cache.subscribed p.cacheKey = true)
    (hParams : ∀ w, c.params p.cacheKey = some w → s.cache.params p.cacheKey = some w ∨ w = s.stored p) :
    Coherent p { s with cache := c } where
  subscribed := hSubscribed
  known hKey := h.known (hKnown hKey)
  sent := h.sent
  pending := h.pending
  cached hNe w hw := by
    obtain hOld | rfl := hParams w hw
    · exact h.cached hNe w hOld
    · exact h.settle_stored
  root hRoot w hw := by
    obtain hOld | hNew := hParams w hw
    · exact h.root hRoot w hOld
    · exact hNew

theorem publish (h : Coherent p s) {tree : Value} {told : List (Path × Bool)}
    (hTold : s.subscribers p = true → valueAt tree p ≠ s.stored p → ∃ t ∈ told, t.1 = p)
    (hRoot : p = [] → s.cache.params p.cacheKey = none ∨ tree = s.master) :
    Coherent p (s.publish tree told) := by
  have hAll : ∀ u ∈ (told.filter fun t => s.subscribers t.1).map fun t => Update.mk t.1 t.2 (valueAt tree t.1),
      u.path = p → s.subscribers p = true ∧ u.value = valueAt tree p := by
    intro u hu hPath
    obtain ⟨t, ht, rfl⟩ := List.mem_map.mp hu
    subst hPath
    exact ⟨(List.mem_filter.mp ht).2, rfl⟩
  -- either some update of the batch brings the new value, or the value has not changed
  have hBatch : s.subscribers p = true → ∀ w, settle p w s.inFlight = s.stored p →
      settle p w (s.publish tree told).inFlight = valueAt tree p := by
    intro hKnown w hw
    rw [Node.publish, settle_append, hw]
    by_cases hChanged : valueAt tree p = s.stored p
    · by_cases hMem : ∃ u ∈ (told.filter fun t => s.subscribers t.1).map fun t =>
          Update.mk t.1 t.2 (valueAt tree t.1), u.path = p
      · exact settle_of_forall_eq hMem (fun u hu hPath => (hAll u hu hPath).2) _
      · rw [settle_of_forall_ne _ fun u hu hPath => hMem ⟨u, hu, hPath⟩, hChanged]
    · obtain ⟨t, ht, hPath⟩ := hTold hKnown hChanged
      refine settle_of_forall_eq ⟨⟨t.1, t.2, valueAt tree t.1⟩, ?_, hPath⟩ (fun u hu hPath => (hAll u hu hPath).2) _
      exact List.mem_map.mpr ⟨t, List.mem_filter.mpr ⟨ht, by rwa [hPath]⟩, rfl⟩
  have hSent : (s.publish tree told).Awaits p → s.subscribers p = true := by
    rintro ⟨u, hu, hPath⟩
    obtain hOld | hNew := List.mem_append.mp hu
    · exact h.sent ⟨u, hOld, hPath⟩
    · exact (hAll u hNew hPath).1
  constructor
  · exact h.subscribed
  · exact h.known
  · exact hSent
  · intro hAwaits w
    rw [settle_eq_settle hAwaits w (s.stored p)]
    exact hBatch (hSent hAwaits) _ h.settle_stored
  · intro hNe w hw
    exact hBatch (h.known (h.subscribed w hw)) w (h.cached hNe w hw)
  · intro hNil w hw
    obtain hNone | rfl := hRoot hNil
    · exact absurd (hNone.symm.trans hw) (by exact fun hSome => by cases hSome)
    · exact h.root hNil w hw

theorem set (h : Coherent p s) {key : Key} {v : Value} {told : List (Path × Bool)}
    (hTold : Told s (.set key v told)) (hCareful : Careful s (.set key v told))
    (hStep : s.step (.set key v told) = some s') : Coherent p s' := by
  cases hStep
  have hErased : Coherent p { s with cache := s.cache.erase key.mapped } := by
    apply h.withCache
    · intro w hw
      exact h.subscribed w ((Param.Cache.shrinks_erase _ _).params _ w hw)
    · exact id
    · intro w hw
      exact Or.inl ((Param.Cache.shrinks_erase _ _).params _ w hw)
  have hPublished : Coherent p
      ({ s with cache := s.cache.erase key.mapped }.publish (s.after (.set key v told)) told) := by
    apply hErased.publish (hTold p)
    rintro rfl
    rw [Path.cacheKey_nil, Param.Cache.erase_params]
    obtain hNone | hMapped | hSame := hCareful
    · refine Or.inl ?_
      split
      · rfl
      · exact hNone
    · exact Or.inl (if_pos hMapped.symm)
    · exact Or.inr hSame
  have hSet : (s.cache.set key.mapped v).subscribed = s.cache.subscribed := Param.Cache.set_subscribed ..
  have hParams : ∀ w, (s.cache.set key.mapped v).params p.cacheKey = some w →
      s.cache.subscribed p.cacheKey = true ∧ ((s.cache.erase key.mapped).params p.cacheKey = some w ∨
        w = valueAt (s.after (.set key v told)) p) := by
    intro w hw
    obtain ⟨hKey, hSubscribed, rfl⟩ | ⟨hOld, hKept⟩ := Param.Cache.set_params hw
    · refine ⟨hSubscribed, Or.inr ?_⟩
      rw [← Key.path_eq hKey.symm]
      exact (Param.valueAt_assign s.master key.path w).symm
    · have hSubscribed := h.subscribed w hOld
      have hNe : p.cacheKey ≠ key.mapped := fun hKey => hKept ⟨hKey, hSubscribed⟩
      refine ⟨hSubscribed, Or.inl ?_⟩
      rwa [Param.Cache.erase_params, if_neg hNe]
  apply hPublished.withCache
  · intro w hw
    rw [hSet]
    exact (hParams w hw).1
  · intro hKey
    rwa [hSet] at hKey
  · exact fun w hw => (hParams w hw).2

theorem del (h : Coherent p s) {key : Key} {told : List (Path × Bool)} (hTold : Told s (.del key told))
    (hCareful : Careful s (.del key told)) (hStep : s.step (.del key told) = some s') : Coherent p s' := by
  cases hStep
  have hOld : ∀ w, ((s.cache.unsubscribe key.mapped).erase key.mapped).params p.cacheKey = some w →
      p.cacheKey ≠ key.mapped ∧ s.cache.params p.cacheKey = some w := by
    intro w hw
    rw [Param.Cache.erase_params] at hw
    split at hw
    · cases hw
    · exact ⟨‹_›, hw⟩
  apply Coherent.publish
  · apply h.withCache
    · intro w hw
      obtain ⟨hNe, hParams⟩ := hOld w hw
      exact (Function.update_of_ne hNe ..).trans (h.subscribed w hParams)
    · intro hKey
      rw [Param.Cache.erase_subscribed, Param.Cache.unsubscribe_subscribed] at hKey
      split at hKey
      · cases hKey
      · exact hKey
    · exact fun w hw => Or.inl (hOld w hw).2
  · exact hTold p
  · rintro rfl
    rw [Path.cacheKey_nil, Param.Cache.erase_params]
    obtain hNone | hMapped | hSame := hCareful
    · refine Or.inl ?_
      split
      · rfl
      · exact hNone
    · exact Or.inl (if_pos hMapped.symm)
    · exact Or.inr hSame

theorem fetch (h : Coherent p s) {q : Path} {v : Value} (hSubscribed : s.cache.subscribed q.cacheKey = true)
    (hCareful : valid (s.stored q) = false → valid v = false) : Coherent p (s.fetch q v).1 := by
  have hStored : (if valid (s.stored q) then s.stored q else v) = s.stored q := by
    split
    · rfl
    · rename_i hNot
      have hInvalid := Bool.eq_false_iff.mpr hNot
      rw [Param.eq_invalid (hCareful hInvalid), Param.eq_invalid hInvalid]
  rw [Node.fetch]
  dsimp only
  rw [hStored]
  by_cases hSelf : p = q
  · subst hSelf
    apply h.withCache
    · exact fun _ _ => hSubscribed
    · exact id
    · intro w hw
      rw [Param.Cache.store_params_self] at hw
      exact Or.inr (Option.some.inj hw).symm
  · have hNe : p.cacheKey ≠ q.cacheKey := fun hKey => hSelf (Path.cacheKey_injective hKey)
    apply h.withCache
    · intro w hw
      rw [Param.Cache.store_params_of_ne hNe] at hw
      exact h.subscribed w hw
    · exact id
    · intro w hw
      rw [Param.Cache.store_params_of_ne hNe] at hw
      exact Or.inl hw

theorem subscribeParam (h : Coherent p s) {q : Path} (hNot : s.cache.subscribed q.cacheKey = false) :
    Coherent p (s.subscribeParam q) := by
  by_cases hSelf : p = q
  · subst hSelf
    have hNone : ∀ w, s.cache.params p.cacheKey ≠ some w := fun w hw =>
      Bool.false_ne_true (hNot.symm.trans (h.subscribed w hw))
    have hKnown : (s.subscribeParam p).subscribers p = true := Function.update_self ..
    exact ⟨fun w hw => absurd hw (hNone w), fun _ => hKnown, fun _ => hKnown, h.pending,
      fun _ w hw => absurd hw (hNone w), fun _ w hw => absurd hw (hNone w)⟩
  · have hNe : p.cacheKey ≠ q.cacheKey := fun hKey => hSelf (Path.cacheKey_injective hKey)
    have hSubscribed : (s.subscribeParam q).cache.subscribed p.cacheKey = s.cache.subscribed p.cacheKey :=
      Function.update_of_ne hNe ..
    have hSubscribers : (s.subscribeParam q).subscribers p = s.subscribers p := Function.update_of_ne hSelf ..
    constructor
    · exact fun w hw => hSubscribed.trans (h.subscribed w hw)
    · exact fun hKey => hSubscribers.trans (h.known (hSubscribed.symm.trans hKey))
    · exact fun hAwaits => hSubscribers.trans (h.sent hAwaits)
    · exact h.pending
    · exact h.cached
    · exact h.root

theorem getCached (h : ∀ p, Coherent p s) {q : Path} {v : Value} (hCareful : Careful s (.getCached q v)) :
    Coherent p (s.getCached q v).1 := by
  rw [Node.getCached]
  split
  · exact h p
  · exact h p
  · rename_i hLookup
    exact (h p).fetch (Param.subscribed_of_lookup_fetch hLookup) (hCareful (Param.params_of_lookup_fetch hLookup))
  · rename_i hLookup
    have hNot := Param.subscribed_of_lookup_subscribe hLookup
    apply ((h p).subscribeParam hNot).fetch
    · exact Function.update_self ..
    · exact hCareful ((h q).params_of_unsubscribed hNot)

theorem update (h : Coherent p s) (hStep : s.step .update = some s') : Coherent p s' := by
  rw [Node.step] at hStep
  split at hStep
  · cases hStep
  rename_i u rest hInFlight
  cases hStep
  have hTail : ∀ t, (∃ u' ∈ rest, u'.path = t) → s.Awaits t := by
    rintro t ⟨u', hu', hPath⟩
    exact ⟨u', hInFlight ▸ List.mem_cons_of_mem u hu', hPath⟩
  have hSet : s.cache.update u.key u.value = s.cache.set u.path.name u.value := by
    rw [Param.Cache.update_eq_set, u.clean_key]
  have hParams : ∀ w, (s.cache.update u.key u.value).params p.cacheKey = some w →
      (u.path = p ∧ s.cache.subscribed p.cacheKey = true ∧ w = u.value) ∨
        (s.cache.params p.cacheKey = some w ∧ (p ≠ [] → u.path ≠ p)) := by
    intro w hw
    rw [hSet] at hw
    obtain ⟨hKey, hSubscribed, hValue⟩ | ⟨hOld, hKept⟩ := Param.Cache.set_params hw
    · refine Or.inl ⟨?_, hSubscribed, hValue⟩
      cases p with
      | nil => exact absurd hKey.symm (Path.name_ne_root u.path)
      | cons seg p => exact Path.name_injective hKey.symm
    · refine Or.inr ⟨hOld, fun hNe hPath => hKept ⟨?_, h.subscribed w hOld⟩⟩
      rw [hPath, Path.cacheKey_of_ne hNe]
  constructor
  · intro w hw
    rw [hSet, Param.Cache.set_subscribed]
    obtain ⟨_, hSubscribed, _⟩ | ⟨hOld, _⟩ := hParams w hw
    · exact hSubscribed
    · exact h.subscribed w hOld
  · intro hKey
    rw [hSet, Param.Cache.set_subscribed] at hKey
    exact h.known hKey
  · exact fun hAwaits => h.sent (hTail p hAwaits)
  · intro hAwaits w
    have hAll := h.pending (hTail p hAwaits) w
    rw [hInFlight, settle, List.foldl_cons] at hAll
    exact (settle_eq_settle hAwaits _ _).trans hAll
  · intro hNe w hw
    obtain ⟨hPath, _, rfl⟩ | ⟨hOld, hOther⟩ := hParams w hw
    · have hAll := h.pending ⟨u, hInFlight ▸ List.mem_cons_self, hPath⟩ u.value
      rwa [hInFlight, settle_cons_self _ hPath] at hAll
    · have hAll := h.cached hNe w hOld
      rwa [hInFlight, settle_cons_of_ne w (hOther hNe)] at hAll
  · rintro rfl w hw
    exact h.root rfl w (Param.Cache.update_root s.cache u.key u.value w hw)

end Coherent

theorem coherent_step (h : ∀ p, Coherent p s) {a : Label} (hTold : Told s a) (hCareful : Careful s a)
    (hStep : s.step a = some s') (p : Path) : Coherent p s' := by
  cases a with
  | set key v told => exact (h p).set hTold hCareful hStep
  | del key told => exact (h p).del hTold hCareful hStep
  | change tree told =>
    cases hStep
    apply (h p).publish (hTold p)
    rintro rfl
    exact hCareful
  | getCached q v =>
    cases hStep
    exact Coherent.getCached h hCareful
  | update => exact (h p).update hStep

end Invariant

section Settled

variable {s s' : Node}

theorem returnsStored_set (h : ∀ p, Coherent p s) {key : Key} {v : Value} {told : List (Path × Bool)}
    (hTold : Told s (.set key v told)) (hCareful : Careful s (.set key v told))
    (hStep : s.step (.set key v told) = some s') {p : Path} (hAbove : p <+: key.path) : s'.ReturnsStored p := by
  have hRoot : p = [] → ∀ w, s'.cache.params p.cacheKey = some w → w = s'.stored p :=
    ((h p).set hTold hCareful hStep).root
  cases hStep
  rw [returnsStored_iff]
  dsimp only
  intro hSubscribed w hw
  rw [Param.Cache.set_subscribed] at hSubscribed
  cases p with
  | nil => exact hRoot rfl w hw
  | cons seg p =>
    have hNe : key.path ≠ [] := fun hNil => absurd (List.prefix_nil.mp (hNil ▸ hAbove)) (List.cons_ne_nil seg p)
    rw [Key.mapped_of_ne hNe] at hw
    by_cases hSelf : seg :: p = key.path
    · rw [hSelf, Path.cacheKey_of_ne hNe] at hw hSubscribed
      obtain ⟨_, _, rfl⟩ | ⟨_, hKept⟩ := Param.Cache.set_params hw
      · rw [hSelf]
        exact (Param.valueAt_assign s.master key.path w).symm
      · exact absurd ⟨rfl, hSubscribed⟩ hKept
    · -- an ancestor is dropped by the walk to the root
      have hNone := Param.Cache.invalidateParentParams_name hAbove hSelf (List.cons_ne_nil seg p)
        (if s.cache.subscribed key.path.name then s.cache.store key.path.name v else s.cache) <| by
          split
          · exact hSubscribed
          · exact hSubscribed
      exact absurd (hNone.symm.trans hw) (fun hSome => by cases hSome)

theorem returnsStored_del (h : ∀ p, Coherent p s) {key : Key} {told : List (Path × Bool)}
    (hTold : Told s (.del key told)) (hCareful : Careful s (.del key told))
    (hStep : s.step (.del key told) = some s') : s'.ReturnsStored key.path := by
  have hRoot : key.path = [] → ∀ w, s'.cache.params key.path.cacheKey = some w → w = s'.stored key.path :=
    ((h key.path).del hTold hCareful hStep).root
  cases hStep
  rw [returnsStored_iff]
  intro hSubscribed w hw
  by_cases hNil : key.path = []
  · exact hRoot hNil w hw
  · have hKey : key.path.cacheKey = key.mapped := by
      rw [Key.mapped_of_ne hNil, Path.cacheKey_of_ne hNil]
    have hNone : ((s.cache.unsubscribe key.mapped).erase key.mapped).params key.path.cacheKey = none := by
      rw [Param.Cache.erase_params, if_pos hKey]
    exact absurd (hNone.symm.trans hw) (fun hSome => by cases hSome)

end Settled

/-- In careful runs `getCached` gives what the master stores for every parameter of which no update is
on its way, and after a `set` or `del` at once for what that step settles. -/
theorem returnsStored_of_careful {s : Node} (hReach : system.ReachableWhen (fun s a => Told s a ∧ Careful s a) s) :
    (∀ p, ¬ s.Awaits p → s.ReturnsStored p) ∧
      ∀ a s', Told s a → Careful s a → s.step a = some s' → ∀ p, Settles p a → s'.ReturnsStored p := by
  have hCoherent : ∀ p, Coherent p s :=
    hReach.invariant (fun s => ∀ p, Coherent p s) (fun _ hInit _ => coherent_of_init hInit)
      (fun _ _ _ hInv hOk hStep => coherent_step hInv hOk.1 hOk.2 hStep)
  refine ⟨fun p hIdle => (hCoherent p).returnsStored hIdle, ?_⟩
  intro a s' hTold hCareful hStep p hSettles
  cases a with
  | set key v told => exact returnsStored_set hCoherent hTold hCareful hStep hSettles
  | del key told =>
    cases hSettles
    exact returnsStored_del hCoherent hTold hCareful hStep
  | change tree told => exact hSettles.elim
  | getCached q v => exact hSettles.elim
  | update => exact hSettles.elim

section Careless

variable {s s' : Node}

theorem not_returnsStored_root (h : Coherent [] s) (hCached : s.cache.params [47] ≠ none)
    (hParams : s'.cache.params [47] = s.cache.params [47])
    (hSubscribed : s'.cache.subscribed [47] = s.cache.subscribed [47]) (hMaster : s'.master ≠ s.master) :
    ¬ s'.ReturnsStored [] := by
  obtain ⟨w, hw⟩ := Option.ne_none_iff_exists'.mp hCached
  have hOld : w = s.master := h.root rfl w hw
  intro hReturns
  have hNew : w = s'.master :=
    returnsStored_iff.mp hReturns (hSubscribed.trans (h.subscribed w hw)) w (hParams.trans hw)
  exact hMaster (hNew.symm.trans hOld)

theorem not_returnsStored_fetch {p : Path} {v : Value} (hSubscribed : s.cache.subscribed p.cacheKey = true)
    (hStored : valid (s.stored p) = false) (hValid : valid v = true) :
    ¬ (s.fetch p v).1.ReturnsStored p := by
  intro hReturns
  have hCached : (s.fetch p v).1.cache.params p.cacheKey = some v := by
    rw [Node.fetch]
    dsimp only
    rw [hStored, Param.Cache.store_params_self]
    rfl
  have hValue : v = s.stored p := returnsStored_iff.mp hReturns hSubscribed v hCached
  rw [← hValue, hValid] at hStored
  cases hStored

theorem not_returnsStored_of_not_careful (h : ∀ p, Coherent p s) {a : Label} (hCareless : ¬ Careful s a)
    (hStep : s.step a = some s') : ∃ p, ¬ s'.ReturnsStored p := by
  cases a with
  | set key v told =>
    obtain ⟨hCached, hMapped, hChanged⟩ := by simpa only [Careful, not_or] using hCareless
    cases hStep
    exact ⟨[], not_returnsStored_root (h []) hCached (Param.Cache.set_root hMapped s.cache v)
      (congrFun (Param.Cache.set_subscribed ..) _) hChanged⟩
  | del key told =>
    obtain ⟨hCached, hMapped, hChanged⟩ := by simpa only [Careful, not_or] using hCareless
    cases hStep
    refine ⟨[], not_returnsStored_root (h []) hCached ?_ ?_ hChanged⟩
    · exact (Param.Cache.erase_params ..).trans (if_neg (Ne.symm hMapped))
    · exact (Param.Cache.unsubscribe_subscribed ..).trans (if_neg (Ne.symm hMapped))
  | change tree told =>
    obtain ⟨hCached, hChanged⟩ := by simpa only [Careful, not_or] using hCareless
    cases hStep
    exact ⟨[], not_returnsStored_root (h []) hCached rfl rfl hChanged⟩
  | getCached p v =>
    simp only [Careful, not_forall] at hCareless
    obtain ⟨hNone, hStored, hValid⟩ := hCareless
    have hHeld : valid v = true := by
      rwa [Bool.not_eq_false] at hValid
    cases hStep
    refine ⟨p, ?_⟩
    cases hSubscribed : s.cache.subscribed p.cacheKey with
    | false =>
      have hLookup : lookup s.cache p.cacheKey = .subscribe := by
        rw [lookup, if_neg (Bool.eq_false_iff.mp hSubscribed)]
      rw [Node.getCached, hLookup]
      exact not_returnsStored_fetch (s := s.subscribeParam p) (Function.update_self ..) hStored hHeld
    | true =>
      have hLookup : lookup s.cache p.cacheKey = .fetch := by
        rw [lookup, if_pos hSubscribed, hNone]
      rw [Node.getCached, hLookup]
      exact not_returnsStored_fetch hSubscribed hStored hHeld
  | update => exact absurd trivial hCareless

end Careless

section Runs

def sampleStart : Node where
  cache := .empty
  master := .struct []
  subscribers _ := false
  inFlight := []

theorem sampleStart_init : system.Init sampleStart := ⟨rfl, fun _ => rfl, rfl⟩

def sampleArm : Path := [⟨bytes "arm", by decide, List.all_iff_forall_prop.mp (by decide)⟩]

def sampleSpeed : Path := sampleArm ++ [⟨bytes "speed", by decide, List.all_iff_forall_prop.mp (by decide)⟩]

def sampleCached : Node := (sampleStart.getCached sampleSpeed .invalid).1

def sampleSet : Label := .set ⟨sampleArm, false⟩ (.struct [(bytes "speed", .int 2)]) [(sampleSpeed, true)]

def sampleChanged : Node := (sampleCached.step sampleSet).getD sampleStart

def sampleUpdated : Node := (sampleChanged.step .update).getD sampleStart

theorem sampleSet_told : Told sampleCached sampleSet := by
  intro p hSubscribed _
  refine ⟨(sampleSpeed, true), List.mem_singleton.mpr rfl, ?_⟩
  by_contra hNe
  have hNot : sampleCached.subscribers p = false := Function.update_of_ne (Ne.symm hNe) ..
  exact Bool.false_ne_true (hNot.symm.trans hSubscribed)

/-- The namespace is right at once and the parameter in it with the update. -/
theorem returnsStored_sample : sampleChanged.ReturnsStored sampleArm ∧
    ∃ s, sampleChanged.step .update = some s ∧ s.ReturnsStored sampleSpeed ∧ s.stored sampleSpeed = .int 2 := by
  have hStart : system.ReachableWhen (fun s a => Told s a ∧ Careful s a) sampleStart := .init sampleStart_init
  have hCached : system.ReachableWhen (fun s a => Told s a ∧ Careful s a) sampleCached :=
    hStart.step (a := .getCached sampleSpeed .invalid) (And.intro (fun p h => by cases h) fun _ _ => rfl) rfl
  have hSet : Careful sampleCached sampleSet := Or.inl rfl
  have hChanged : system.ReachableWhen (fun s a => Told s a ∧ Careful s a) sampleChanged :=
    hCached.step ⟨sampleSet_told, hSet⟩ rfl
  have hUpdated : system.ReachableWhen (fun s a => Told s a ∧ Careful s a) sampleUpdated :=
    hChanged.step (a := .update) (And.intro (fun p _ h => absurd rfl h) trivial) rfl
  refine ⟨?_, sampleUpdated, rfl, ?_, rfl⟩
  · exact (returnsStored_of_careful hCached).2 sampleSet sampleChanged sampleSet_told hSet rfl sampleArm
      (List.prefix_refl _)
  · apply (returnsStored_of_careful hUpdated).1
    rintro ⟨u, hu, _⟩
    cases hu

def sampleRootRun : List Label :=
  [.getCached [] .invalid, .set ⟨sampleArm, false⟩ (.int 1) [([], true)], .update]

def sampleStale : Node := (system.run sampleStart sampleRootRun).getD sampleStart

/-- The root is cached under its slash, and neither the walk to the parents nor the update gets there. -/
theorem root_outdated : system.ReachableWhen Told sampleStale ∧ ¬ sampleStale.Awaits [] ∧
    ¬ sampleStale.ReturnsStored [] := by
  have hStart : system.ReachableWhen Told sampleStart := .init sampleStart_init
  have hCached : system.ReachableWhen Told (sampleStart.getCached [] .invalid).1 :=
    hStart.step (a := .getCached [] .invalid) (fun p h => by cases h) rfl
  have hTold : Told (sampleStart.getCached [] .invalid).1 (.set ⟨sampleArm, false⟩ (.int 1) [([], true)]) := by
    intro p hSubscribed _
    refine ⟨([], true), List.mem_singleton.mpr rfl, ?_⟩
    by_contra hNe
    have hNot : (sampleStart.getCached [] .invalid).1.subscribers p = false :=
      Function.update_of_ne (Ne.symm hNe) ..
    exact Bool.false_ne_true (hNot.symm.trans hSubscribed)
  refine ⟨(hCached.step hTold rfl).step (a := .update) (fun p _ h => absurd rfl h) rfl, ?_, ?_⟩
  · rintro ⟨u, hu, _⟩
    cases hu
  · intro hReturns
    have hStored : Value.struct [] = Value.struct [(bytes "arm", .int 1)] :=
      returnsStored_iff.mp hReturns rfl (.struct []) rfl
    simp at hStored

end Runs

end XcRos.Libros.ParamCoherence
