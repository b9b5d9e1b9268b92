import XcRos.Genpy.SerializeFn

/-! # Instances and their leaves

A deserializer assigns what it reads to the leaves of an instance, of which none is in the way of another. What comes
back of a value is the value, but for arrays of simple types: these are tuples, and arrays of `bool` are iterators.
-/

namespace XcRos.Genpy

open XcRos.Foundation XcRos.Msg

mutual

def Ty.readBack : Ty → PyVal → PyVal
  | .array _ (.simple .bool), .list _ => .iterator
  | .array _ (.simple _), .list vs => .tuple vs
  | .array _ t, .list vs => .list (vs.map t.readBack)
  | .message cls members, .obj _ attrs => .obj cls (members.readBack attrs)
  | _, v => v

def Members.readBack : Members → List (Str × PyVal) → List (Str × PyVal)
  | .cons name t rest, (_, v) :: attrs => (remapReserved name, t.readBack v) :: rest.readBack attrs
  | _, _ => []

end

mutual

/-- An object of the class, with objects for the embedded messages and anything but `None` for the rest. -/
def Ty.Instance : Ty → PyVal → Prop
  | .message cls members, v => ∃ attrs, v = .obj cls attrs ∧ members.Instance attrs
  | _, v => v ≠ .none

def Members.Instance : Members → List (Str × PyVal) → Prop
  | .nil, attrs => attrs = []
  | .cons name t rest, attrs =>
    ∃ v more, attrs = (remapReserved name, v) :: more ∧ t.Instance v ∧ rest.Instance more

end

def slotted (leaf : Path × Ty) : Path × Ty := (slotPath leaf.1, leaf.2)

/-! ## Places that are apart -/

theorem attributes_apart {members : Members} (hSlots : members.slots.Nodup) :
    (members.toList.map fun member => [remapReserved member.1]).Pairwise PyVal.Apart := by
  have h : members.slots.Pairwise fun a b => PyVal.Apart [a] [b] := hSlots.imp fun hNe => PyVal.apart_of_ne hNe [] []
  rw [Members.slots, List.pairwise_map] at h
  rwa [List.pairwise_map]

mutual

theorem Ty.leaves_apart : (t : Ty) → t.WellFormed → (t.leaves.map fun leaf => slotPath leaf.1).Pairwise PyVal.Apart
  | .simple _, _ => List.pairwise_singleton _ _
  | .string, _ => List.pairwise_singleton _ _
  | .array _ _, _ => List.pairwise_singleton _ _
  | .message _ members, hFormed => members.leaves_apart hFormed.1 hFormed.2

theorem Members.leaves_apart : (members : Members) → members.slots.Nodup → members.WellFormed →
    (members.leaves.map fun leaf => slotPath leaf.1).Pairwise PyVal.Apart
  | .nil, _, _ => .nil
  | .cons name t rest, hSlots, hFormed => by
    obtain ⟨hFresh, hRestSlots⟩ := List.nodup_cons.mp hSlots
    rw [Members.leaves, List.map_append, List.pairwise_append]
    refine ⟨?_, rest.leaves_apart hRestSlots hFormed.2, ?_⟩
    · have hBelow := t.leaves_apart hFormed.1
      rw [List.pairwise_map] at hBelow
      rw [List.map_map, List.pairwise_map]
      exact hBelow.imp fun h => h.cons (remapReserved name)
    · intro p hp q hq
      obtain ⟨_, hMapped, rfl⟩ := List.mem_map.mp hp
      obtain ⟨leaf, _, rfl⟩ := List.mem_map.mp hMapped
      obtain ⟨other, hOther, rfl⟩ := List.mem_map.mp hq
      obtain ⟨member, hMember, below, _, rfl⟩ := Members.mem_leaves.mp hOther
      refine PyVal.apart_of_ne (fun hEq => hFresh ?_) _ _
      exact List.mem_map.mpr ⟨member, hMember, hEq.symm⟩

end

end XcRos.Genpy
