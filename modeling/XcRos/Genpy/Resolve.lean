import XcRos.Genpy.Message

/-! # Resolved types

How the generators see a type that resolves to a tree: which of their branches it takes, and what the
embedded specification is.
-/

namespace XcRos.Genpy

open XcRos.Foundation XcRos.Msg

inductive ResolvedBase (sub : MsgSpec → Option Members) (ctx : MsgContext) : Str → Ty → Prop
  | simple {base : Str} {s : Simple} (hSimple : simpleOf base = some s) : ResolvedBase sub ctx base (.simple s)
  | string : ResolvedBase sub ctx (str "string") .string
  | message {base : Str} {spec : MsgSpec} {members : Members} (hSimple : simpleOf base = none)
      (hString : base ≠ str "string") (hName : (base = str "time" ∨ base = str "duration") ∨ '/' ∈ base)
      (hSpec : ctx.getRegistered base = some spec) (hSub : sub spec = some members) (hSlots : members.slots.Nodup) :
      ResolvedBase sub ctx base (.message base members)

inductive Resolved (sub : MsgSpec → Option Members) (ctx : MsgContext) : Str → Ty → Prop
  | scalar {type : Str} {t : Ty} (hParse : parseType type = some (type, .scalar)) (hBracket : '[' ∉ type)
      (hBase : ResolvedBase sub ctx type t) : Resolved sub ctx type t
  | array {type base : Str} {arity : Arity} {t : Ty} (hParse : parseType type = some (base, arity))
      (hArity : arity ≠ .scalar) (hSimple : simpleOf type = none) (hBracket : '[' ∉ base)
      (hBase : ResolvedBase sub ctx base t) : Resolved sub ctx type (.array (arrayLen arity) t)

section

variable {sub : MsgSpec → Option Members} {ctx : MsgContext}

theorem resolvedBase {base : Str} {t : Ty} (h : resolveBase sub ctx base = some t) : ResolvedBase sub ctx base t := by
  rw [resolveBase] at h
  split at h
  · rename_i s hSimple
    cases h
    exact .simple hSimple
  · rename_i hSimple
    split at h
    · rename_i hString
      cases h
      exact hString ▸ .string
    · rename_i hString
      split at h
      · rename_i hName
        obtain ⟨spec, hSpec, hRest⟩ := Option.bind_eq_some_iff.mp h
        obtain ⟨members, hSub, hMessage⟩ := Option.bind_eq_some_iff.mp hRest
        split at hMessage
        · rename_i hSlots
          cases hMessage
          exact .message hSimple hString (or_assoc.mpr hName) hSpec hSub hSlots
        · cases hMessage
      · cases h

theorem parseType_scalar {type base : Str} (h : parseType type = some (base, .scalar)) : base = type ∧ '[' ∉ type := by
  rw [parseType] at h
  split at h
  · cases h
  · split at h
    · dsimp only at h
      split at h
      · cases h
      · split at h
        · cases h
        · obtain ⟨n, _, hPair⟩ := Option.map_eq_some_iff.mp h
          cases hPair
    · rename_i hBracket
      cases h
      exact ⟨rfl, hBracket⟩

theorem not_mem_bareMsgType (type : Str) : '[' ∉ bareMsgType type := by
  intro h
  have := List.mem_takeWhile_imp h
  simp at this

theorem name_of_simpleOf {type : Str} {s : Simple} (h : simpleOf type = some s) : s.name = type := by
  have hFound := List.find?_some h
  simpa using hFound

theorem simpleOf_string : simpleOf (str "string") = none := by decide

theorem simpleOf_array {type base : Str} {arity : Arity} (hParse : parseType type = some (base, arity))
    (hArity : arity ≠ .scalar) : simpleOf type = none := by
  cases hSimple : simpleOf type with
  | none => rfl
  | some s =>
    rw [← name_of_simpleOf hSimple] at hParse
    have hScalar : parseType s.name = some (s.name, .scalar) := by cases s <;> decide
    rw [hScalar] at hParse
    cases hParse
    exact absurd rfl hArity

theorem resolved {type : Str} {t : Ty} (h : resolveType sub ctx type = some t) : Resolved sub ctx type t := by
  obtain ⟨⟨base, arity⟩, hParse, hRest⟩ := Option.bind_eq_some_iff.mp h
  obtain ⟨elem, hElem, hArity⟩ := Option.bind_eq_some_iff.mp hRest
  have hBase := resolvedBase hElem
  have hBracket : '[' ∉ base := parseType_base hParse ▸ not_mem_bareMsgType type
  cases arity with
  | scalar =>
    obtain ⟨rfl, _⟩ := parseType_scalar hParse
    cases hArity
    exact .scalar hParse hBracket hBase
  | «variable» =>
    cases hArity
    exact .array hParse (by simp) (simpleOf_array hParse (by simp)) hBracket hBase
  | fixed n =>
    simp only at hArity
    split at hArity
    · cases hArity
      exact .array hParse (by simp) (simpleOf_array hParse (by simp)) hBracket hBase
    · cases hArity

theorem Resolved.isSimple_iff {type : Str} {t : Ty} (h : Resolved sub ctx type t) :
    isSimple type = true ↔ ∃ s, simpleOf type = some s ∧ t = .simple s := by
  constructor
  · intro hSimple
    obtain ⟨s, hs⟩ := Option.isSome_iff_exists.mp hSimple
    cases h with
    | scalar hParse hBracket hBase =>
      cases hBase with
      | simple hOf => exact ⟨_, hOf, rfl⟩
      | string =>
        rw [simpleOf_string] at hs
        cases hs
      | message hNone =>
        rw [hs] at hNone
        cases hNone
    | array _ _ hNone =>
      rw [hs] at hNone
      cases hNone
  · rintro ⟨s, hs, _⟩
    rw [isSimple, hs]
    rfl

end

/-! ## Names of packages -/

theorem eq_of_split {sep : Char} {s a b : Str} (h : split sep s = [a, b]) : s = a ++ sep :: b := by
  induction s generalizing a b with
  | nil => cases h
  | cons c s ih =>
    rw [split] at h
    split at h
    · rename_i hSep
      obtain ⟨rfl, hRest⟩ := List.cons.inj h
      have hWhole : s = b := by
        clear h ih
        induction s generalizing b with
        | nil => exact (List.cons.inj hRest).1
        | cons d s ih =>
          rw [split] at hRest
          split at hRest
          · have hNil := (List.cons.inj hRest).2
            exact absurd hNil (split_ne_nil sep s)
          · split at hRest
            · rename_i hNone
              exact absurd hNone (split_ne_nil sep s)
            · rename_i part parts hParts
              obtain ⟨rfl, hNil⟩ := List.cons.inj hRest
              cases hNil
              rw [ih hParts]
      rw [hSep, hWhole, List.nil_append]
    · split at h
      · cases h
      · rename_i part parts hParts
        obtain ⟨rfl, hRest⟩ := List.cons.inj h
        rw [List.cons_append, ← ih (hParts.trans (by rw [hRest]))]

section

variable {ctx : MsgContext} {base : Str} {spec : MsgSpec}

theorem bareMsgType_of_not_mem (h : '[' ∉ base) : bareMsgType base = base :=
  List.takeWhile_eq_self_iff.mpr fun c hc => decide_eq_true fun hEq : c = '[' => h (hEq ▸ hc)

theorem computePkgType_registered (hBracket : '[' ∉ base) (hSlash : '/' ∈ base)
    (hSpec : ctx.getRegistered base = some spec) (package : Str) :
    (computePkgType package base).map (fun r => fullType r.1 r.2) = some base := by
  rw [MsgContext.getRegistered, bareMsgType_of_not_mem hBracket, packageResourceName, if_pos hSlash] at hSpec
  rw [computePkgType]
  split at hSpec
  · rename_i pkg name hSplit
    rw [hSplit]
    exact congrArg some (eq_of_split hSplit).symm
  · cases hSpec

theorem ne_header (hName : (base = str "time" ∨ base = str "duration") ∨ '/' ∈ base) : base ≠ str "Header" := by
  rintro rfl
  revert hName
  decide

theorem isSpecial_iff (hName : (base = str "time" ∨ base = str "duration") ∨ '/' ∈ base) :
    isSpecial base = true ↔ base = str "time" ∨ base = str "duration" := by
  have := ne_header hName
  simp [isSpecial, this]

theorem complex_type (hBracket : '[' ∉ base) (hName : (base = str "time" ∨ base = str "duration") ∨ '/' ∈ base)
    (hSpec : ctx.getRegistered base = some spec) (package : Str) :
    (if isSpecial base then some base
      else (computePkgType package base).map fun r => fullType r.1 r.2) = some base := by
  split
  · rfl
  · rename_i hSpecial
    rw [isSpecial_iff hName] at hSpecial
    exact computePkgType_registered hBracket (hName.resolve_left hSpecial) hSpec package

theorem computeConstructor_registered (hBracket : '[' ∉ base)
    (hName : (base = str "time" ∨ base = str "duration") ∨ '/' ∈ base)
    (hSpec : ctx.getRegistered base = some spec) (package : Str) :
    computeConstructor ctx package base = some (some base) := by
  rw [computeConstructor, if_neg (ne_header hName)]
  split
  · rfl
  · rename_i hSpecial
    rw [isSpecial_iff hName] at hSpecial
    rw [if_neg (not_not.mpr (bareMsgType_of_not_mem hBracket))]
    have hFull := computePkgType_registered hBracket (hName.resolve_left hSpecial) hSpec package
    obtain ⟨⟨pkg, name⟩, hPkg, hBase⟩ := Option.map_eq_some_iff.mp hFull
    have hRegistered : (ctx.getRegistered (fullType pkg name)).isSome = true := by
      rw [show fullType pkg name = base from hBase, hSpec]
      rfl
    rw [hPkg, Option.map_some]
    show some (if (ctx.getRegistered (fullType pkg name)).isSome then some (fullType pkg name) else none) = _
    rw [if_pos hRegistered]
    exact congrArg (fun cls => some (some cls)) hBase

end

end XcRos.Genpy
