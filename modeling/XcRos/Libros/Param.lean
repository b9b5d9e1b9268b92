import Mathlib.Logic.Function.Basic
import XcRos.Libros.Names
import XcRos.Rpc.Value

/-! # The parameter cache

The globals of `param.cpp` and the sections of `set`, `getImpl` and `update` that run under
`g_params_mutex`. What lies between two sections, the call to the master, is left to the caller.
-/

namespace XcRos.Libros.Param

open XcRos.Rpc

/-- `XmlRpcValue::valid` -/
def valid : Value → Bool
  | .invalid => false
  | _ => true

theorem eq_invalid {v : Value} (h : valid v = false) : v = .invalid := by
  cases v with
  | invalid => rfl
  | _ => cases h

/-- `g_params` and `g_subscribed_params` -/
structure Cache where
  params : Bytes → Option Value
  subscribed : Bytes → Bool

namespace Cache

def empty : Cache where
  params _ := none
  subscribed _ := false

/-- `g_params[key] = v` -/
def store (c : Cache) (key : Bytes) (v : Value) : Cache :=
  { c with params := Function.update c.params key (some v) }

/-- `g_params.erase(key)` -/
def erase (c : Cache) (key : Bytes) : Cache :=
  { c with params := Function.update c.params key none }

def subscribe (c : Cache) (key : Bytes) : Cache :=
  { c with subscribed := Function.update c.subscribed key true }

def unsubscribe (c : Cache) (key : Bytes) : Cache :=
  { c with subscribed := Function.update c.subscribed key false }

/-- The loop of `invalidateParentParams`, each parent being shorter than the name before. -/
def invalidateFrom (c : Cache) : Nat → Bytes → Cache
  | 0, _ => c
  | fuel + 1, nsKey =>
    if nsKey = [] ∨ nsKey = [47] then c
    else
      let next : Cache := if c.subscribed nsKey then c.erase nsKey else c
      match Names.parentNamespace nsKey with
      | .ok parent => invalidateFrom next fuel parent
      | .error _ => next

/-- `invalidateParentParams`, up to the exception that a name outside of the grammar raises. -/
def invalidateParentParams (c : Cache) (key : Bytes) : Cache :=
  match Names.parentNamespace key with
  | .ok parent => c.invalidateFrom (parent.length + 1) parent
  | .error _ => c

/-- `set` after the master has taken the value. -/
def set (c : Cache) (mappedKey : Bytes) (v : Value) : Cache :=
  let c := if c.subscribed mappedKey then c.store mappedKey v else c
  c.invalidateParentParams mappedKey

def update (c : Cache) (key : Bytes) (v : Value) : Cache :=
  let cleanKey := Names.clean key
  let c := if c.subscribed cleanKey then c.store cleanKey v else c
  c.invalidateParentParams cleanKey

@[simp] theorem store_subscribed (c : Cache) (key : Bytes) (v : Value) :
    (c.store key v).subscribed = c.subscribed := rfl

@[simp] theorem erase_subscribed (c : Cache) (key : Bytes) : (c.erase key).subscribed = c.subscribed := rfl

@[simp] theorem subscribe_params (c : Cache) (key : Bytes) : (c.subscribe key).params = c.params := rfl

@[simp] theorem unsubscribe_params (c : Cache) (key : Bytes) : (c.unsubscribe key).params = c.params := rfl

theorem unsubscribe_subscribed (c : Cache) (key other : Bytes) :
    (c.unsubscribe key).subscribed other = if other = key then false else c.subscribed other :=
  Function.update_apply ..

theorem store_params_self (c : Cache) (key : Bytes) (v : Value) : (c.store key v).params key = some v :=
  Function.update_self ..

theorem store_params_of_ne {key other : Bytes} (h : key ≠ other) (c : Cache) (v : Value) :
    (c.store other v).params key = c.params key := Function.update_of_ne h ..

theorem erase_params (c : Cache) (key other : Bytes) :
    (c.erase key).params other = if other = key then none else c.params other := Function.update_apply ..

structure Shrinks (c c' : Cache) : Prop where
  subscribed : c'.subscribed = c.subscribed
  params : ∀ key v, c'.params key = some v → c.params key = some v

theorem Shrinks.refl (c : Cache) : Shrinks c c := ⟨rfl, fun _ _ h => h⟩

theorem Shrinks.trans {c c' c'' : Cache} (h : Shrinks c c') (h' : Shrinks c' c'') : Shrinks c c'' :=
  ⟨h'.subscribed.trans h.subscribed, fun key v hv => h.params key v (h'.params key v hv)⟩

theorem shrinks_erase (c : Cache) (key : Bytes) : Shrinks c (c.erase key) := by
  refine ⟨rfl, fun other v hv => ?_⟩
  rw [erase_params] at hv
  split at hv
  · cases hv
  · exact hv

theorem shrinks_invalidateFrom (c : Cache) (fuel : Nat) (nsKey : Bytes) :
    Shrinks c (c.invalidateFrom fuel nsKey) := by
  induction fuel generalizing c nsKey with
  | zero => exact Shrinks.refl c
  | succ fuel ih =>
    have hNext : Shrinks c (if c.subscribed nsKey then c.erase nsKey else c) := by
      split
      · exact shrinks_erase c nsKey
      · exact Shrinks.refl c
    rw [invalidateFrom]
    split
    · exact Shrinks.refl c
    · dsimp only
      split
      · exact hNext.trans (ih _ _)
      · exact hNext

theorem shrinks_invalidateParentParams (c : Cache) (key : Bytes) :
    Shrinks c (c.invalidateParentParams key) := by
  rw [invalidateParentParams]
  split
  · exact shrinks_invalidateFrom c _ _
  · exact Shrinks.refl c

@[simp] theorem set_subscribed (c : Cache) (key : Bytes) (v : Value) :
    (c.set key v).subscribed = c.subscribed := by
  rw [set, (shrinks_invalidateParentParams _ _).subscribed]
  split <;> rfl

theorem set_params {c : Cache} {key other : Bytes} {v w : Value} (h : (c.set other v).params key = some w) :
    (key = other ∧ c.subscribed key = true ∧ w = v) ∨
      (c.params key = some w ∧ ¬ (key = other ∧ c.subscribed key = true)) := by
  have hStored := (shrinks_invalidateParentParams _ _).params key w h
  by_cases hKey : key = other
  · subst hKey
    split at hStored
    · rename_i hSubscribed
      rw [store_params_self] at hStored
      exact Or.inl ⟨rfl, hSubscribed, (Option.some.inj hStored).symm⟩
    · rename_i hSubscribed
      exact Or.inr ⟨hStored, fun h => hSubscribed h.2⟩
  · refine Or.inr ⟨?_, fun h => hKey h.1⟩
    split at hStored
    · rwa [store_params_of_ne hKey] at hStored
    · exact hStored

theorem update_eq_set (c : Cache) (key : Bytes) (v : Value) : c.update key v = c.set (Names.clean key) v := rfl

theorem update_root (c : Cache) (key : Bytes) (v w : Value) (h : (c.update key v).params [47] = some w) :
    c.params [47] = some w := by
  rw [update_eq_set] at h
  obtain ⟨hRoot, _, _⟩ | ⟨hKept, _⟩ := set_params h
  · exact absurd hRoot.symm (Names.clean_ne_root key)
  · exact hKept

end Cache

/-- What `getImpl` with `use_cache` does once it has looked into the cache. -/
inductive Lookup where
  | hit (v : Value)
  | miss
  | fetch
  | subscribe

/-- The first section of `getImpl` up to the call of `subscribeParam`. -/
def lookup (c : Cache) (mappedKey : Bytes) : Lookup :=
  if c.subscribed mappedKey then
    match c.params mappedKey with
    | some v => if valid v then .hit v else .miss
    | none => .fetch
  else .subscribe

theorem subscribed_of_lookup_fetch {c : Cache} {key : Bytes} (h : lookup c key = .fetch) :
    c.subscribed key = true := by
  rw [lookup] at h
  split at h
  · assumption
  · cases h

theorem params_of_lookup_fetch {c : Cache} {key : Bytes} (h : lookup c key = .fetch) : c.params key = none := by
  rw [lookup] at h
  split at h
  · split at h
    · split at h <;> cases h
    · assumption
  · cases h

theorem subscribed_of_lookup_subscribe {c : Cache} {key : Bytes} (h : lookup c key = .subscribe) :
    c.subscribed key = false := by
  rw [lookup] at h
  split at h
  · split at h
    · split at h <;> cases h
    · cases h
  · exact Bool.eq_false_iff.mpr ‹_›

end XcRos.Libros.Param
