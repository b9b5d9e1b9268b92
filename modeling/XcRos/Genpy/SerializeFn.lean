import XcRos.Genpy.Encoding
import XcRos.Genpy.Flatten
import XcRos.Genpy.SerializeFields

/-! # What serialize writes

The code of `serialize_fn_generator` names every leaf of the message from `self`. If all names are those of
the slots, it writes the bytes of the message, and else it raises.
-/

namespace XcRos.Genpy

open XcRos.Foundation XcRos.Msg

/-! ## The leaves of a message -/

theorem Members.mem_leaves {members : Members} {leaf : Path × Ty} :
    leaf ∈ members.leaves ↔
      ∃ member ∈ members.toList, ∃ rest ∈ member.2.leaves, leaf = (member.1 :: rest.1, rest.2) := by
  rw [members.leaves_eq, Members.leavesAs, List.mem_flatMap]
  simp only [List.mem_map, id, eq_comm]

theorem Ty.mem_leaves_cons {t : Ty} {name : Str} {path : Path} {u : Ty} (h : (name :: path, u) ∈ t.leaves) :
    ∃ cls members, t = .message cls members ∧ ∃ member ∈ members.toList, member.1 = name ∧ (path, u) ∈ member.2.leaves := by
  cases t with
  | message cls members =>
    obtain ⟨member, hMember, rest, hRest, hEq⟩ := Members.mem_leaves.mp h
    obtain ⟨hPath, rfl⟩ := Prod.mk.inj hEq
    obtain ⟨rfl, rfl⟩ := List.cons.inj hPath
    exact ⟨cls, members, rfl, member, hMember, rfl, hRest⟩
  | simple | string | array =>
    have := List.mem_singleton.mp h
    cases this

theorem at?_cons (name : Str) (path : Path) (cls : Str) (attrs : List (Str × PyVal)) :
    (PyVal.obj cls attrs).at? (name :: path) = (attrs.lookup name).bind (PyVal.at? path) := rfl

theorem Members.keys_of_shaped {members : Members} {attrs : List (Str × PyVal)} (h : members.Shaped attrs) :
    attrs.map Prod.fst = members.slots := by
  induction members using Members.listInduction generalizing attrs with
  | nil =>
    obtain rfl := h
    rfl
  | cons name t rest ih =>
    obtain ⟨v, more, rfl, _, hRest⟩ := h
    rw [List.map_cons, ih hRest]
    rfl

theorem at?_leaf {path : Path} {u t : Ty} {w : PyVal} (hShaped : t.Shaped w) (hSlots : t.WellFormed)
    (hLeaf : (path, u) ∈ t.leaves) : ∃ v, w.at? (slotPath path) = some v ∧ u.Shaped v := by
  induction path generalizing t w with
  | nil =>
    cases t with
    | message cls members =>
      obtain ⟨member, _, rest, _, hEq⟩ := Members.mem_leaves.mp hLeaf
      cases hEq
    | simple | string | array =>
      have := List.mem_singleton.mp hLeaf
      cases this
      exact ⟨w, rfl, hShaped⟩
  | cons name path ih =>
    obtain ⟨cls, members, rfl, member, hMember, rfl, hRest⟩ := Ty.mem_leaves_cons hLeaf
    obtain ⟨attrs, rfl, hMembers⟩ := hShaped
    obtain ⟨v, hv, hPart⟩ := members_part hMembers hSlots.1 member hMember
    obtain ⟨leaf, hAt, hLeafShaped⟩ := ih hPart (members.wellFormed_iff.mp hSlots.2 member hMember) hRest
    refine ⟨leaf, ?_, hLeafShaped⟩
    rw [slotPath, List.map_cons, at?_cons, hv]
    exact hAt

theorem at?_misnamed {path : Path} {u t : Ty} {w : PyVal} (hShaped : t.Shaped w) (hSlots : t.WellFormed)
    (hLeaf : (path, u) ∈ t.leaves) (hName : ∃ name ∈ path.dropLast, remapReserved name ≠ name) :
    w.at? (remapPath path) = none := by
  induction path generalizing t w with
  | nil => simp at hName
  | cons name path ih =>
    obtain ⟨cls, members, rfl, member, hMember, rfl, hRest⟩ := Ty.mem_leaves_cons hLeaf
    obtain ⟨attrs, rfl, hMembers⟩ := hShaped
    rcases eq_or_ne path [] with rfl | hNe
    · simp at hName
    rw [remapPath_cons hNe, at?_cons]
    rcases eq_or_ne (remapReserved member.1) member.1 with hSame | hChanged
    · obtain ⟨v, hv, hPart⟩ := members_part hMembers hSlots.1 member hMember
      rw [hSame] at hv
      rw [hv, Option.bind_some]
      refine ih hPart (members.wellFormed_iff.mp hSlots.2 member hMember) hRest ?_
      obtain ⟨name, hMem, hNot⟩ := hName
      rw [List.dropLast_cons_of_ne_nil hNe] at hMem
      rcases List.mem_cons.mp hMem with rfl | hMem
      · exact absurd hSame hNot
      · exact ⟨name, hMem, hNot⟩
    · have hNone : attrs.lookup member.1 = none := by
        rw [List.lookup_eq_none_iff]
        intro entry hEntry
        have hKey : entry.1 ∈ members.slots := members.keys_of_shaped hMembers ▸ List.mem_map.mpr ⟨entry, hEntry, rfl⟩
        obtain ⟨other, _, hOther⟩ := List.mem_map.mp hKey
        exact bne_iff_ne.mpr fun hEq => ne_remapReserved hChanged other.1 (hOther.trans hEq.symm)
      rw [hNone]
      rfl

mutual

theorem Ty.serial_leaves : (t : Ty) → (v : PyVal) → t.Shaped v → t.WellFormed →
    encodeEach (fun leaf => (v.at? (slotPath leaf.1)).bind leaf.2.serial) t.leaves = t.serial v
  | .simple s, _, _, _ => encodeEach_singleton _ ([], Ty.simple s)
  | .string, _, _, _ => encodeEach_singleton _ ([], Ty.string)
  | .array length t, _, _, _ => encodeEach_singleton _ ([], Ty.array length t)
  | .message cls members, v, h, hSlots => by
    obtain ⟨attrs, rfl, hMembers⟩ := h
    exact members.serial_leaves attrs hMembers hSlots.1 hSlots.2 (.obj cls attrs) fun _ _ => rfl

theorem Members.serial_leaves : (members : Members) → (attrs : List (Str × PyVal)) → members.Shaped attrs →
    members.slots.Nodup → members.WellFormed → (o : PyVal) → (∀ k ∈ members.slots, o.getattr k = attrs.lookup k) →
    encodeEach (fun leaf => (o.at? (slotPath leaf.1)).bind leaf.2.serial) members.leaves = members.serial attrs
  | .nil, attrs, h, _, _, _, _ => by
    obtain rfl := h
    rfl
  | .cons name t rest, attrs, h, hNodup, hSlots, o, hLook => by
    obtain ⟨v, more, rfl, hHead, hRest⟩ := h
    have hFirst : o.getattr (remapReserved name) = some v := by
      rw [hLook _ List.mem_cons_self, List.lookup_cons_self]
    have hTail := rest.serial_leaves more hRest (List.nodup_cons.mp hNodup).2 hSlots.2 o fun k hk => by
      rw [hLook k (List.mem_cons_of_mem _ hk), lookup_below hNodup k hk]
    rw [Members.leaves, encodeEach_append, hTail, encodeEach_map, Members.serial, ← t.serial_leaves v hHead hSlots.1]
    have hEach : ∀ leaf ∈ t.leaves, (o.at? (slotPath (name :: leaf.1))).bind leaf.2.serial =
        (v.at? (slotPath leaf.1)).bind leaf.2.serial := by
      intro leaf _
      rw [slotPath, List.map_cons, PyVal.at?, hFirst]
      rfl
    rw [encodeEach_congr hEach]

end

theorem at?_named {members : Members} {attrs : List (Str × PyVal)} (hShaped : members.Shaped attrs)
    (hSlots : members.slots.Nodup) (hFormed : members.WellFormed) (cls : Str) {member : Str × Ty}
    (hMember : member ∈ members.toList) {leaf : Path × Ty} (hLeaf : leaf ∈ member.2.leaves) :
    (∃ v, (∀ name ∈ leaf.1.dropLast, remapReserved name = name) ∧
      (PyVal.obj cls attrs).at? (remapPath (remapReserved member.1 :: leaf.1)) = some v ∧ leaf.2.Shaped v) ∨
    (¬ (∀ name ∈ leaf.1.dropLast, remapReserved name = name) ∧
      (PyVal.obj cls attrs).at? (remapPath (remapReserved member.1 :: leaf.1)) = none) := by
  obtain ⟨w, hw, hPart⟩ := members_part hShaped hSlots member hMember
  have hMemberFormed := members.wellFormed_iff.mp hFormed member hMember
  rw [remapPath_slot, at?_cons, hw, Option.bind_some]
  by_cases hNames : ∀ name ∈ leaf.1.dropLast, remapReserved name = name
  · obtain ⟨v, hv, hLeafShaped⟩ := at?_leaf hPart hMemberFormed hLeaf
    exact .inl ⟨v, hNames, by rw [remapPath_eq_slotPath hNames, hv], hLeafShaped⟩
  · refine .inr ⟨hNames, at?_misnamed hPart hMemberFormed hLeaf ?_⟩
    push Not at hNames
    exact hNames

/-! ## The function -/

def Frame.method (v : PyVal) : Frame where
  vars := fun y => if y = .self then some (.value v) else none
  length := 0
  start := 0
  stop := 0
  pattern := []
  buff := []

theorem method_scoped (v : PyVal) (counter : Nat) : (Frame.method v).Scoped ⟨.self, 1⟩ counter .self [] v :=
  Frame.scoped_value (by rw [Frame.method]; rfl) trivial

section

variable {ctx : MsgContext} {fuel : Nat} {spec : MsgSpec} {members : Members}

theorem flatten_slots (hCtx : PrimitivesUnregistered ctx) (h : resolve ctx fuel spec = some members) :
    ∃ (less : Nat) (entries : List Entry), fuel = less + 1 ∧
      (flatten ctx fuel (makePythonSafe (specFields spec))).map makePythonSafe = some (entries.map Prod.fst) ∧
      (∀ e ∈ entries, Resolved (resolve ctx less) ctx e.1.1 e.2) ∧
      entries.map (fun e => (e.1.2, e.2)) =
        (members.leavesAs remapReserved).map fun leaf => (remapPath leaf.1, leaf.2) := by
  cases fuel with
  | zero => cases h
  | succ less =>
    obtain ⟨entries, hEntries, hResolved, hLeaves⟩ :=
      flattenFields_resolved hCtx (flattensTo hCtx less) remapReserved h
    refine ⟨less, entries.map fun e => ((e.1.1, remapPath e.1.2), e.2), rfl, ?_, ?_, ?_⟩
    · have hFields : makePythonSafe (specFields spec) = spec.fields.map fun field => (field.1, [remapReserved field.2]) := by
        rw [makePythonSafe, specFields, List.map_map]
        rfl
      rw [hFields]
      show (flattenFields (flatten ctx less) ctx _).map makePythonSafe = _
      rw [hEntries, Option.map_some, makePythonSafe, List.map_map, List.map_map]
      rfl
    · intro e he
      obtain ⟨e', he', rfl⟩ := List.mem_map.mp he
      exact hResolved e' he'
    · rw [← hLeaves, List.map_map, List.map_map]
      rfl

theorem serializeFn_writes (hCtx : PrimitivesUnregistered ctx) (h : resolve ctx fuel spec = some members)
    (hSlots : members.slots.Nodup) (package : Str) (counter : Nat) (env : Env) :
    ∃ code, serializeFn ctx fuel package (makePythonSafe (specFields spec)) counter = some code ∧
      ∀ cls attrs, members.Shaped attrs →
        (members.NamedAlike →
          Writes (execAll env code (.method (.obj cls attrs))) (.method (.obj cls attrs)) 1 counter (members.serial attrs)) ∧
        (¬ members.NamedAlike → execAll env code (.method (.obj cls attrs)) = none) := by
  have hFormed := wellFormed_of_resolve fuel spec members h
  obtain ⟨less, entries, rfl, hEntries, hResolved, hLeaves⟩ := flatten_slots hCtx h
  obtain ⟨flattened, hFlat, hSafe⟩ := Option.map_eq_some_iff.mp hEntries
  obtain ⟨code, counter', hCode, _, hWrites⟩ :=
    emits_entries (subWrites_serializer env ctx less) ⟨.self, 1⟩ package hResolved counter
  refine ⟨code, by rw [serializeFn, hFlat, Option.bind_some, hSafe, hCode]; rfl, fun cls attrs hShaped => ?_⟩
  have hShapedLeaf : ∀ e ∈ entries, ∀ v, (PyVal.obj cls attrs).at? e.1.2 = some v → e.2.Shaped v := by
    intro e he v hv
    have hMem : (e.1.2, e.2) ∈ (members.leavesAs remapReserved).map fun leaf => (remapPath leaf.1, leaf.2) :=
      hLeaves ▸ List.mem_map.mpr ⟨e, he, rfl⟩
    obtain ⟨leaf, hLeaf, hEq⟩ := List.mem_map.mp hMem
    obtain ⟨member, hMember, hMapped⟩ := List.mem_flatMap.mp hLeaf
    obtain ⟨rest, hRest, rfl⟩ := List.mem_map.mp hMapped
    obtain ⟨hPath, hTy⟩ := Prod.mk.inj hEq
    rw [← hPath] at hv
    rcases at?_named hShaped hSlots hFormed cls hMember hRest with ⟨w, _, hw, hPart⟩ | ⟨_, hNone⟩
    · obtain rfl := Option.some.inj (hv.symm.trans hw)
      exact hTy ▸ hPart
    · rw [hNone] at hv
      cases hv
  have hRun := hWrites (.method (.obj cls attrs)) .self [] _ (method_scoped _ counter) hShapedLeaf
  rw [entriesSerial_eq, hLeaves] at hRun
  constructor
  · intro hNames
    have hBytes := members.serial_leaves attrs hShaped hSlots hFormed (.obj cls attrs) fun _ _ => rfl
    rwa [remapPath_leaf hNames, encodeEach_map, hBytes] at hRun
  · intro hNames
    rw [Members.NamedAlike] at hNames
    push Not at hNames
    obtain ⟨member, hMember, rest, hRest, name, hName, hNot⟩ := hNames
    refine hRun.raises (encodeEach_eq_none (a := (remapPath (remapReserved member.1 :: rest.1), rest.2)) ?_ ?_)
    · refine List.mem_map.mpr ⟨(remapReserved member.1 :: rest.1, rest.2), ?_, rfl⟩
      exact List.mem_flatMap.mpr ⟨member, hMember, List.mem_map.mpr ⟨rest, hRest, rfl⟩⟩
    · rcases at?_named hShaped hSlots hFormed cls hMember hRest with ⟨_, hAll, _⟩ | ⟨_, hNone⟩
      · exact absurd (hAll name hName) hNot
      · rw [hNone]
        rfl

end

end XcRos.Genpy
