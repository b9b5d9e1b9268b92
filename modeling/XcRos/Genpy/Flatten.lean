import Mathlib.Data.Bool.AllAny
import XcRos.Genpy.Emit

/-! # Flattened fields

Flattening a specification goes down its tree to the leaves, which are no messages. The path to a leaf is
made of names of the specifications, of which `make_python_safe` changes the last.
-/

namespace XcRos.Genpy

open XcRos.Foundation XcRos.Msg

mutual

def Ty.leaves : Ty → List (Path × Ty)
  | .message _ members => members.leaves
  | t => [([], t)]

def Members.leaves : Members → List (Path × Ty)
  | .nil => []
  | .cons name t rest => t.leaves.map (fun leaf => (name :: leaf.1, leaf.2)) ++ rest.leaves

end

def Members.leavesAs (g : Str → Str) (members : Members) : List (Path × Ty) :=
  members.toList.flatMap fun member => member.2.leaves.map fun leaf => (g member.1 :: leaf.1, leaf.2)

theorem Members.leaves_eq (members : Members) : members.leaves = members.leavesAs id := by
  induction members using Members.listInduction with
  | nil => rfl
  | cons name t rest ih =>
    rw [Members.leaves, ih]
    rfl

def Ty.isArray : Ty → Bool
  | .array _ _ => true
  | _ => false

mutual

def Ty.WellFormed : Ty → Prop
  | .array _ t => t.isArray = false ∧ t.WellFormed
  | .message _ members => members.slots.Nodup ∧ members.WellFormed
  | _ => True

def Members.WellFormed : Members → Prop
  | .nil => True
  | .cons _ t rest => t.WellFormed ∧ rest.WellFormed

end

theorem Members.wellFormed_iff (members : Members) :
    members.WellFormed ↔ ∀ member ∈ members.toList, member.2.WellFormed := by
  induction members using Members.listInduction with
  | nil => exact iff_of_true trivial fun _ h => absurd h List.not_mem_nil
  | cons name t rest ih => rw [Members.WellFormed, ih, Members.toList, List.forall_mem_cons]

/-! ## More fuel -/

section

variable {ctx : MsgContext} {sub sub' : MsgSpec → Option Members} (hSub : ∀ spec members, sub spec = some members → sub' spec = some members)

include hSub

theorem ResolvedBase.mono {base : Str} {t : Ty} (h : ResolvedBase sub ctx base t) : ResolvedBase sub' ctx base t := by
  cases h with
  | simple hSimple => exact .simple hSimple
  | string => exact .string
  | message hSimple hString hName hSpec hMembers hSlots =>
    exact .message hSimple hString hName hSpec (hSub _ _ hMembers) hSlots

theorem Resolved.mono {type : Str} {t : Ty} (h : Resolved sub ctx type t) : Resolved sub' ctx type t := by
  cases h with
  | scalar hParse hBracket hBase => exact .scalar hParse hBracket (hBase.mono hSub)
  | array hParse hArity hSimple hBracket hBase => exact .array hParse hArity hSimple hBracket (hBase.mono hSub)

theorem resolveBase_mono {base : Str} {t : Ty} (h : resolveBase sub ctx base = some t) :
    resolveBase sub' ctx base = some t := by
  rw [resolveBase] at h ⊢
  split at h
  · exact h
  · split at h
    · rename_i hString
      rwa [if_pos hString]
    · rename_i hString
      rw [if_neg hString]
      split at h
      · rename_i hName
        rw [if_pos hName]
        obtain ⟨spec, hSpec, hRest⟩ := Option.bind_eq_some_iff.mp h
        obtain ⟨members, hMembers, hMessage⟩ := Option.bind_eq_some_iff.mp hRest
        rw [hSpec, Option.bind_some, hSub spec members hMembers]
        exact hMessage
      · cases h

theorem resolveMembers_mono {fields : List (Str × Str)} {members : Members}
    (h : resolveMembers sub ctx fields = some members) : resolveMembers sub' ctx fields = some members := by
  induction fields generalizing members with
  | nil => exact h
  | cons field fields ih =>
    obtain ⟨t, hType, hRest⟩ := Option.bind_eq_some_iff.mp h
    obtain ⟨rest, hFields, rfl⟩ := Option.map_eq_some_iff.mp hRest
    obtain ⟨⟨base, arity⟩, hParse, hTail⟩ := Option.bind_eq_some_iff.mp hType
    obtain ⟨elem, hElem, hArity⟩ := Option.bind_eq_some_iff.mp hTail
    refine Option.bind_eq_some_iff.mpr ⟨t, ?_, by rw [ih hFields]; rfl⟩
    exact Option.bind_eq_some_iff.mpr ⟨_, hParse, Option.bind_eq_some_iff.mpr ⟨elem, resolveBase_mono hSub hElem, hArity⟩⟩

end

theorem resolve_le {ctx : MsgContext} {fuel more : Nat} (hLe : fuel ≤ more) {spec : MsgSpec} {members : Members}
    (h : resolve ctx fuel spec = some members) : resolve ctx more spec = some members := by
  have hBody : Monotonic fun sub (spec : MsgSpec) => resolveMembers sub ctx spec.fields :=
    fun _ _ hSub _ _ hMembers => resolveMembers_mono hSub hMembers
  exact fuelled_le hBody hLe h

/-! ## Flattening -/

/-- The context registers no primitive type, so that `flatten` leaves these alone. -/
def PrimitivesUnregistered (ctx : MsgContext) : Prop := ∀ type ∈ primitiveTypes, ctx.getRegistered type = none

/-- `flat` goes down to the leaves of the specifications that resolve. -/
def FlattensTo (ctx : MsgContext) (resolves : MsgSpec → Option Members) (flat : Fields → Option Fields) : Prop :=
  ∀ spec members, resolves spec = some members → ∃ entries : List Entry,
    flat (specFields spec) = some (entries.map Prod.fst) ∧ (∀ e ∈ entries, Resolved resolves ctx e.1.1 e.2) ∧
      entries.map (fun e => (e.1.2, e.2)) = members.leaves

theorem mem_primitiveTypes {type : Str} {s : Simple} (h : simpleOf type = some s) : type ∈ primitiveTypes := by
  rw [← name_of_simpleOf h]
  cases s <;> decide

section

variable {ctx : MsgContext} {resolves : MsgSpec → Option Members} {flat : Fields → Option Fields}

theorem flattenField_resolved (hCtx : PrimitivesUnregistered ctx) (hFlat : FlattensTo ctx resolves flat) {type : Str}
    {t : Ty} (h : Resolved resolves ctx type t) (name : Str) :
    ∃ entries : List Entry, flattenField flat ctx type [name] = some (entries.map Prod.fst) ∧
      (∀ e ∈ entries, Resolved resolves ctx e.1.1 e.2) ∧
      entries.map (fun e => (e.1.2, e.2)) = t.leaves.map fun leaf => (name :: leaf.1, leaf.2) := by
  have hLeaf : t.leaves = [([], t)] → flattenField flat ctx type [name] = some [(type, [name])] →
      ∃ entries : List Entry, flattenField flat ctx type [name] = some (entries.map Prod.fst) ∧
        (∀ e ∈ entries, Resolved resolves ctx e.1.1 e.2) ∧
        entries.map (fun e => (e.1.2, e.2)) = t.leaves.map fun leaf => (name :: leaf.1, leaf.2) := by
    intro hLeaves hField
    refine ⟨[((type, [name]), t)], hField, fun e he => ?_, by rw [hLeaves]; rfl⟩
    obtain rfl := List.mem_singleton.mp he
    exact h
  have hPrimitive : ctx.getRegistered type = none → parseType type = some (type, .scalar) →
      flattenField flat ctx type [name] = some [(type, [name])] := by
    intro hNone hParse
    rw [flattenField, hParse, Option.bind_some]
    dsimp only
    rw [if_pos rfl, hNone]
  cases h with
  | scalar hParse hBracket hBase =>
    cases hBase with
    | simple hSimple => exact hLeaf rfl (hPrimitive (hCtx _ (mem_primitiveTypes hSimple)) hParse)
    | string => exact hLeaf rfl (hPrimitive (hCtx _ (by decide)) hParse)
    | @message base spec members hSimple hString hName hSpec hMembers hSlots =>
      obtain ⟨entries, hEntries, hResolved, hLeaves⟩ := hFlat spec members hMembers
      refine ⟨entries.map fun e => ((e.1.1, name :: e.1.2), e.2), ?_, ?_, ?_⟩
      · rw [flattenField, hParse, Option.bind_some]
        dsimp only
        rw [if_pos rfl, hSpec]
        dsimp only
        rw [hEntries, Option.map_some, List.map_map, List.map_map]
        rfl
      · intro e he
        obtain ⟨e', he', rfl⟩ := List.mem_map.mp he
        exact hResolved e' he'
      · rw [Ty.leaves, ← hLeaves, List.map_map, List.map_map]
        rfl
  | array hParse hArity =>
    refine hLeaf rfl ?_
    rw [flattenField, hParse, Option.bind_some]
    exact if_neg hArity

theorem flattenFields_resolved (hCtx : PrimitivesUnregistered ctx) (hFlat : FlattensTo ctx resolves flat) (g : Str → Str)
    {fields : List (Str × Str)} {members : Members} (h : resolveMembers resolves ctx fields = some members) :
    ∃ entries : List Entry,
      flattenFields flat ctx (fields.map fun field => (field.1, [g field.2])) = some (entries.map Prod.fst) ∧
      (∀ e ∈ entries, Resolved resolves ctx e.1.1 e.2) ∧
      entries.map (fun e => (e.1.2, e.2)) = members.leavesAs g := by
  induction fields generalizing members with
  | nil =>
    cases h
    exact ⟨[], rfl, fun _ he => absurd he List.not_mem_nil, rfl⟩
  | cons field fields ih =>
    obtain ⟨type, name⟩ := field
    obtain ⟨t, hType, hRest⟩ := Option.bind_eq_some_iff.mp h
    obtain ⟨rest, hFields, rfl⟩ := Option.map_eq_some_iff.mp hRest
    obtain ⟨front, hFront, hFrontResolved, hFrontLeaves⟩ := flattenField_resolved hCtx hFlat (resolved hType) (g name)
    obtain ⟨entries, hEntries, hResolved, hLeaves⟩ := ih hFields
    refine ⟨front ++ entries, ?_, ?_, ?_⟩
    · rw [List.map_cons, flattenFields, hFront, Option.bind_some, hEntries, Option.map_some, List.map_append]
    · intro e he
      rcases List.mem_append.mp he with he | he
      · exact hFrontResolved e he
      · exact hResolved e he
    · rw [List.map_append, hFrontLeaves, hLeaves]
      rfl

end

theorem flattensTo {ctx : MsgContext} (hCtx : PrimitivesUnregistered ctx) (fuel : Nat) :
    FlattensTo ctx (resolve ctx fuel) (flatten ctx fuel) := by
  induction fuel with
  | zero => rintro spec members ⟨⟩
  | succ fuel ih =>
    intro spec members hMembers
    obtain ⟨entries, hEntries, hResolved, hLeaves⟩ := flattenFields_resolved hCtx ih id hMembers
    refine ⟨entries, hEntries, fun e he => ?_, by rw [hLeaves, members.leaves_eq]⟩
    exact (hResolved e he).mono fun spec members h => resolve_le (Nat.le_succ fuel) h

theorem wellFormed_of_resolve {ctx : MsgContext} (fuel : Nat) :
    ∀ spec members, resolve ctx fuel spec = some members → members.WellFormed := by
  induction fuel with
  | zero => rintro spec members ⟨⟩
  | succ fuel ih =>
    intro spec members hMembers
    obtain ⟨entries, hEntries⟩ := exists_memberEntries (resolve ctx fuel) hMembers
    have hBase : ∀ base t, ResolvedBase (resolve ctx fuel) ctx base t → t.isArray = false ∧ t.WellFormed := by
      intro base t hBase
      cases hBase with
      | simple => exact ⟨rfl, trivial⟩
      | string => exact ⟨rfl, trivial⟩
      | message _ _ _ _ hSub hSlots => exact ⟨rfl, hSlots, ih _ _ hSub⟩
    have hType : ∀ type t, Resolved (resolve ctx fuel) ctx type t → t.WellFormed := by
      intro type t hResolved
      cases hResolved with
      | scalar _ _ h => exact (hBase _ _ h).2
      | array _ _ _ _ h =>
        rw [Ty.WellFormed]
        exact hBase _ _ h
    refine members.wellFormed_iff.mpr fun member hMember => ?_
    have hMem : ([remapReserved member.1], member.2) ∈ entries.map fun e => (e.1.2, e.2) :=
      hEntries.slots ▸ List.mem_map.mpr ⟨member, hMember, rfl⟩
    obtain ⟨e, he, hEq⟩ := List.mem_map.mp hMem
    exact (Prod.mk.inj hEq).2 ▸ hType e.1.1 e.2 (hEntries.resolved e he)

/-! ## Names on the way -/

theorem remapReserved_not_mem (name : Str) : remapReserved name ∉ kwlist ++ [str "self"] := by
  have hLast : ∀ word ∈ kwlist ++ [str "self"], word.getLast? ≠ some '_' := List.all_iff_forall_prop.mp (by decide)
  rw [remapReserved]
  split
  · exact fun hMem => hLast _ hMem (by simp)
  · rename_i h
    exact h

theorem remapReserved_remapReserved (name : Str) : remapReserved (remapReserved name) = remapReserved name := by
  rw [remapReserved, if_neg (remapReserved_not_mem name)]

theorem ne_remapReserved {name : Str} (h : remapReserved name ≠ name) (other : Str) : remapReserved other ≠ name := by
  rintro rfl
  exact h (remapReserved_remapReserved other)

def slotPath (path : Path) : Path := path.map remapReserved

theorem remapPath_cons {path : Path} (h : path ≠ []) (name : Str) : remapPath (name :: path) = name :: remapPath path := by
  obtain ⟨next, path, rfl⟩ := List.exists_cons_of_ne_nil h
  rfl

theorem remapPath_slot (name : Str) (path : Path) :
    remapPath (remapReserved name :: path) = remapReserved name :: remapPath path := by
  rcases eq_or_ne path [] with rfl | hNe
  · exact congrArg (fun slot => [slot]) (remapReserved_remapReserved name)
  · exact remapPath_cons hNe _

theorem remapPath_eq_slotPath {path : Path} (h : ∀ name ∈ path.dropLast, remapReserved name = name) :
    remapPath path = slotPath path := by
  induction path with
  | nil => rfl
  | cons name path ih =>
    rcases eq_or_ne path [] with rfl | hNe
    · rfl
    · rw [List.dropLast_cons_of_ne_nil hNe] at h
      rw [remapPath_cons hNe, ih fun next hNext => h next (List.mem_cons_of_mem _ hNext), slotPath, slotPath, List.map_cons,
        h name List.mem_cons_self]

/-- No name between the first and the last on the way to a leaf is changed. -/
def Members.NamedAlike (members : Members) : Prop :=
  ∀ member ∈ members.toList, ∀ leaf ∈ member.2.leaves, ∀ name ∈ leaf.1.dropLast, remapReserved name = name

theorem remapPath_leaf {members : Members} (hNames : members.NamedAlike) :
    (members.leavesAs remapReserved).map (fun leaf => (remapPath leaf.1, leaf.2)) =
      members.leaves.map fun leaf => (slotPath leaf.1, leaf.2) := by
  rw [members.leaves_eq, Members.leavesAs, Members.leavesAs, List.map_flatMap, List.map_flatMap]
  refine List.flatMap_congr fun member hMember => ?_
  rw [List.map_map, List.map_map]
  refine List.map_congr_left fun leaf hLeaf => ?_
  have hPath : remapPath (remapReserved member.1 :: leaf.1) = slotPath (member.1 :: leaf.1) := by
    rw [remapPath_slot, remapPath_eq_slotPath (hNames member hMember leaf hLeaf)]
    rfl
  exact congrArg (fun path => (path, leaf.2)) hPath

end XcRos.Genpy
