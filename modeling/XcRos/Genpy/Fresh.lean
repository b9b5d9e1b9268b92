import XcRos.Genpy.FillArgs
import XcRos.Genpy.ReadFn

/-! # New instances

The instance of a class that a specification resolves to, and what the classes say about the types of the slots.
-/

namespace XcRos.Genpy

open XcRos.Foundation XcRos.Msg

mutual

def Ty.fresh : Ty → PyVal
  | .simple .float32 => .single 0
  | .simple .float64 => .double 0
  | .simple .bool => .bool false
  | .simple _ => .int 0
  | .string => .str []
  | .array length t =>
    if t.isByte then .bytes (List.replicate (length.getD 0) 0) else .list (List.replicate (length.getD 0) t.fresh)
  | .message cls members => .obj cls members.fresh

def Members.fresh : Members → List (Str × PyVal)
  | .nil => []
  | .cons name t rest => (remapReserved name, t.fresh) :: rest.fresh

end

def arityOfLength : Option Nat → Arity
  | none => .variable
  | some n => .fixed n

inductive SlotType (type : Str) : Ty → Prop
  | other {t : Ty} (hArray : t.isArray = false) : SlotType type t
  | array {length : Option Nat} {elem : Ty} {base : Str} (hParse : parseType type = some (base, arityOfLength length))
      (hSimple : elem.isSimple = true → primitiveTypes.contains base = true)
      (hMessage : ∀ cls members, elem = .message cls members → base = cls ∧ primitiveTypes.contains base = false) :
      SlotType type (.array length elem)

mutual

def Ty.Generated (ctx : MsgContext) (fuel : Nat) : Ty → Prop
  | .array _ t => t.Generated ctx fuel
  | .message cls members =>
    newInstance ctx fuel cls = some (.obj cls members.fresh) ∧
      ∃ spec, ctx.getRegistered cls = some spec ∧ members.Generated ctx fuel spec.types
  | _ => True

def Members.Generated (ctx : MsgContext) (fuel : Nat) : Members → List Str → Prop
  | .nil, types => types = []
  | .cons _ t rest, types =>
    ∃ type more, types = type :: more ∧ SlotType type t ∧ t.Generated ctx fuel ∧ rest.Generated ctx fuel more

end

/-! ## Default values -/

section

variable {ctx : MsgContext} {resolves : MsgSpec → Option Members} {new : Str → Option PyVal}

/-- `new` makes the fresh instance of every class that resolves. -/
def NewFresh (ctx : MsgContext) (resolves : MsgSpec → Option Members) (new : Str → Option PyVal) : Prop :=
  ∀ base spec members, ctx.getRegistered base = some spec → resolves spec = some members →
    new base = some (.obj base members.fresh)

theorem defaultValue_scalar_fresh (hNew : NewFresh ctx resolves new) {base : Str} {t : Ty}
    (hBase : ResolvedBase resolves ctx base t) (hBracket : '[' ∉ base) : defaultValue new base = some t.fresh := by
  rw [defaultValue, parseType_base_scalar hBase hBracket, Option.bind_some]
  dsimp only
  cases hBase with
  | @simple base s hSimple =>
    rw [hSimple]
    cases s <;> rfl
  | string =>
    rw [simpleOf_string]
    rfl
  | message hSimple hString _ hSpec hMembers =>
    rw [hSimple]
    dsimp only
    rw [if_neg hString]
    exact hNew _ _ _ hSpec hMembers

theorem defaultValue_fresh (hNew : NewFresh ctx resolves new) {type : Str} {t : Ty} (h : Resolved resolves ctx type t) :
    defaultValue new type = some t.fresh := by
  cases h with
  | scalar _ hBracket hBase => exact defaultValue_scalar_fresh hNew hBase hBracket
  | @array base arity elem hParse hArity _ hBracket hBase =>
    have hScalar := defaultValue_scalar_fresh hNew hBase hBracket
    rw [defaultValue, parseType_base_scalar hBase hBracket, Option.bind_some] at hScalar
    rw [defaultValue, hParse, Option.bind_some]
    dsimp only at hScalar ⊢
    rw [hScalar, isBytes_iff hBase, Ty.fresh]
    cases arity with
    | scalar => exact absurd rfl hArity
    | «variable» => cases elem.isByte <;> rfl
    | fixed n => cases elem.isByte <;> rfl

end

theorem newFresh_newInstance (ctx : MsgContext) (fuel : Nat) : NewFresh ctx (resolve ctx fuel) (newInstance ctx fuel) := by
  induction fuel with
  | zero =>
    rintro base spec members _ ⟨⟩
  | succ fuel ih =>
    intro base spec members hSpec hMembers
    have hFields : ∀ (fields : List (Str × Str)) (members : Members),
        resolveMembers (resolve ctx fuel) ctx fields = some members →
        (fields.mapM fun field => (defaultValue (newInstance ctx fuel) field.1).map fun v => (remapReserved field.2, v)) =
          some members.fresh := by
      intro fields
      induction fields with
      | nil =>
        rintro _ ⟨⟩
        rfl
      | cons field fields ihFields =>
        intro members hMembers
        obtain ⟨t, hType, hRest⟩ := Option.bind_eq_some_iff.mp hMembers
        obtain ⟨rest, hTail, rfl⟩ := Option.map_eq_some_iff.mp hRest
        rw [List.mapM_cons, defaultValue_fresh ih (resolved hType), ihFields rest hTail]
        rfl
    show (ctx.getRegistered base).bind _ = _
    rw [hSpec, Option.bind_some]
    exact congrArg (Option.map (PyVal.obj base)) (hFields spec.fields members hMembers)

/-! ## Types of slots -/

theorem not_primitive {base : Str} (hName : (base = str "time" ∨ base = str "duration") ∨ '/' ∈ base) :
    primitiveTypes.contains base = false := by
  have hNone : ∀ type ∈ primitiveTypes, '/' ∉ type ∧ type ≠ str "time" ∧ type ≠ str "duration" := by decide
  cases hPrimitive : primitiveTypes.contains base with
  | false => rfl
  | true =>
    obtain ⟨hSlash, hTime, hDuration⟩ := hNone base (List.contains_iff_mem.mp hPrimitive)
    exact absurd hName (not_or.mpr ⟨not_or.mpr ⟨hTime, hDuration⟩, hSlash⟩)

theorem primitive_of_simple {base : Str} {s : Simple} (h : simpleOf base = some s) : primitiveTypes.contains base = true := by
  rw [← name_of_simpleOf h]
  cases s <;> decide

theorem slotType_of_resolveType {ctx : MsgContext} {resolves : MsgSpec → Option Members} {type : Str} {t : Ty}
    (h : resolveType resolves ctx type = some t) : SlotType type t := by
  obtain ⟨⟨base, arity⟩, hParse, hRest⟩ := Option.bind_eq_some_iff.mp h
  obtain ⟨elem, hElem, hArity⟩ := Option.bind_eq_some_iff.mp hRest
  have hBase := resolvedBase hElem
  have hSimple : elem.isSimple = true → primitiveTypes.contains base = true := by
    intro hSimple
    cases hBase with
    | simple hOf => exact primitive_of_simple hOf
    | string | message => cases hSimple
  have hMessage : ∀ cls members, elem = .message cls members → base = cls ∧ primitiveTypes.contains base = false := by
    rintro cls members rfl
    cases hBase with
    | message _ _ hName => exact ⟨rfl, not_primitive hName⟩
  cases arity with
  | scalar =>
    cases hArity
    cases hBase with
    | simple | string | message => exact .other rfl
  | «variable» =>
    cases hArity
    exact .array hParse hSimple hMessage
  | fixed n =>
    dsimp only at hArity
    split at hArity
    · rename_i hNonneg
      cases hArity
      refine .array (hParse.trans ?_) hSimple hMessage
      rw [arityOfLength, Int.toNat_of_nonneg hNonneg]
    · cases hArity

section

variable {ctx : MsgContext} {fuel : Nat} {resolves : MsgSpec → Option Members}
  (hSub : ∀ cls spec members, ctx.getRegistered cls = some spec → resolves spec = some members →
    (Ty.message cls members).Generated ctx fuel)

include hSub

theorem generated_resolveBase {base : Str} {t : Ty} (h : resolveBase resolves ctx base = some t) : t.Generated ctx fuel := by
  cases resolvedBase h with
  | simple | string => trivial
  | message _ _ _ hSpec hMembers => exact hSub _ _ _ hSpec hMembers

theorem generated_resolveType {type : Str} {t : Ty} (h : resolveType resolves ctx type = some t) : t.Generated ctx fuel := by
  obtain ⟨⟨base, arity⟩, _, hRest⟩ := Option.bind_eq_some_iff.mp h
  obtain ⟨elem, hElem, hArity⟩ := Option.bind_eq_some_iff.mp hRest
  have hGenerated := generated_resolveBase hSub hElem
  cases arity with
  | scalar | «variable» =>
    cases hArity
    exact hGenerated
  | fixed n =>
    dsimp only at hArity
    split at hArity
    · cases hArity
      exact hGenerated
    · cases hArity

theorem generated_resolveMembers {types names : List Str} (hLength : types.length = names.length) {members : Members}
    (h : resolveMembers resolves ctx (types.zip names) = some members) : members.Generated ctx fuel types := by
  induction types generalizing names members with
  | nil =>
    cases h
    rfl
  | cons type types ih =>
    cases names with
    | nil => cases hLength
    | cons name names =>
      obtain ⟨t, hType, hRest⟩ := Option.bind_eq_some_iff.mp h
      obtain ⟨rest, hTail, rfl⟩ := Option.map_eq_some_iff.mp hRest
      exact ⟨type, types, rfl, slotType_of_resolveType hType, generated_resolveType hSub hType,
        ih (Nat.succ.inj hLength) hTail⟩

end

theorem generated_resolve {ctx : MsgContext} {fuel more : Nat} (hLe : fuel ≤ more) {spec : MsgSpec} {members : Members}
    (h : resolve ctx fuel spec = some members) : members.Generated ctx more spec.types := by
  induction fuel generalizing spec members with
  | zero => cases h
  | succ fuel ih =>
    have hLess : fuel ≤ more := by omega
    refine @generated_resolveMembers ctx more (resolve ctx fuel) (fun cls spec members hSpec hMembers => ?_) _ _ spec.sameLength _ h
    exact ⟨newFresh_newInstance ctx more cls spec members hSpec (resolve_le hLess hMembers), spec, hSpec, ih hLess hMembers⟩

end XcRos.Genpy
