import XcRos.Msg.PyStr

/-! # Message specifications

Types, fields and constants of a message, and the context in which specifications are registered.
A specification carries what its constructor checks.
-/

namespace XcRos.Msg

def primitiveTypes : List Str :=
  ["int8", "uint8", "int16", "uint16", "int32", "uint32", "int64", "uint64", "float32", "float64",
    "string", "bool", "char", "byte"].map str

def builtinTypes : List Str := primitiveTypes ++ [str "time", str "duration"]

def isBuiltin (msgTypeName : Str) : Bool := builtinTypes.contains msgTypeName

def bareMsgType (msgType : Str) : Str := msgType.takeWhile (· ≠ '[')

inductive Arity where
  | scalar
  | variable
  | fixed (n : Int)
deriving DecidableEq, Repr

/-- `parse_type`: the base type, and `is_array` with `array_length` as an `Arity`. -/
def parseType (msgType : Str) : Option (Str × Arity) :=
  if msgType = [] then none
  else if '[' ∈ msgType then
    let splits := split '[' msgType
    if splits.length > 2 then none
    else if (str "[]").isSuffixOf msgType then some (msgType.dropLast.dropLast, .variable)
    else (int (splits.getD 1 []).dropLast).map fun length => (splits.getD 0 [], .fixed length)
  else some (msgType, .scalar)

structure Constant where
  type : Str
  name : Str
  valText : Str
deriving DecidableEq, Repr

/-- `MsgSpec`, with what its constructor asserts or raises `InvalidMsgSpec` for. -/
structure MsgSpec where
  types : List Str
  names : List Str
  constants : List Constant
  text : Str
  fullName : Str
  shortName : Str
  package : Str
  sameLength : types.length = names.length
  distinctNames : names.Nodup
  parsedFields : ∀ type ∈ types, (parseType type).isSome

def MsgSpec.fields (spec : MsgSpec) : List (Str × Str) := spec.types.zip spec.names

/-- `package_resource_name`; `none` is the `ValueError` for a name with two slashes. -/
def packageResourceName (name : Str) : Option (Str × Str) :=
  if '/' ∈ name then
    match split '/' name with
    | [package, base] => some (package, base)
    | _ => none
  else some ([], name)

/-- `MsgContext`: the registered specifications by package and base name. -/
structure MsgContext where
  registered : Str → Str → Option MsgSpec

namespace MsgContext

def empty : MsgContext := ⟨fun _ _ => none⟩

def register (ctx : MsgContext) (fullMsgType : Str) (spec : MsgSpec) : Option MsgContext :=
  (packageResourceName (bareMsgType fullMsgType)).map fun key =>
    ⟨fun package base => if (package, base) = key then some spec else ctx.registered package base⟩

/-- `get_registered`; `none` is its `KeyError`, or the `ValueError` for the name. -/
def getRegistered (ctx : MsgContext) (fullMsgType : Str) : Option MsgSpec :=
  (packageResourceName (bareMsgType fullMsgType)).bind fun key => ctx.registered key.1 key.2

end MsgContext

theorem mem_of_mem_bareMsgType {c : Char} {msgType : Str} (h : c ∈ bareMsgType msgType) : c ∈ msgType :=
  (List.takeWhile_prefix _).subset h

theorem split_ne_nil (sep : Char) (s : Str) : split sep s ≠ [] := by
  induction s with
  | nil => simp [split]
  | cons c rest ih =>
    rw [split]
    split
    · simp
    · split <;> simp

theorem split_head (sep : Char) (s : Str) : (split sep s).head? = some (s.takeWhile (· ≠ sep)) := by
  induction s with
  | nil => rfl
  | cons c rest ih =>
    rw [split]
    split
    · rename_i h
      simp [h]
    · rename_i h
      rw [List.takeWhile_cons_of_pos (by simpa using h)]
      cases hRest : split sep rest with
      | nil => exact absurd hRest (split_ne_nil sep rest)
      | cons part parts =>
        rw [hRest] at ih
        simpa using ih

theorem split_length (sep : Char) (s : Str) : (split sep s).length = s.count sep + 1 := by
  induction s with
  | nil => rfl
  | cons c rest ih =>
    rw [split]
    split
    · rename_i h
      simp [h, ih]
    · rename_i h
      cases hRest : split sep rest with
      | nil => exact absurd hRest (split_ne_nil sep rest)
      | cons part parts =>
        rw [hRest] at ih
        simpa [List.count_cons_of_ne h] using ih

theorem not_mem_of_mem_split {sep : Char} {s part : Str} (h : part ∈ split sep s) : sep ∉ part := by
  induction s generalizing part with
  | nil =>
    rw [List.mem_singleton.mp h]
    exact List.not_mem_nil
  | cons c rest ih =>
    rw [split] at h
    split at h
    · obtain rfl | hRest := List.mem_cons.mp h
      · exact List.not_mem_nil
      · exact ih hRest
    · rename_i hc
      obtain ⟨first, parts, hSplit⟩ := List.exists_cons_of_ne_nil (split_ne_nil sep rest)
      rw [hSplit] at h ih
      dsimp only at h
      obtain rfl | hRest := List.mem_cons.mp h
      · rintro (_ | ⟨_, hMem⟩)
        · exact hc rfl
        · exact ih List.mem_cons_self hMem
      · exact ih (List.mem_cons_of_mem first hRest)

theorem packageResourceName_append_cons {package base : Str} (hPackage : '/' ∉ package) (hBase : '/' ∉ base) :
    packageResourceName (package ++ '/' :: base) = some (package, base) := by
  rw [packageResourceName, if_pos (List.mem_append_right _ List.mem_cons_self), split_append_cons hPackage,
    split_of_not_mem hBase]

theorem packageResourceName_eq_some {name package base : Str} (h : packageResourceName name = some (package, base)) :
    '/' ∉ package ∧ '/' ∉ base ∧ (name = package ++ '/' :: base ∨ '/' ∉ name ∧ package = [] ∧ base = name) := by
  rw [packageResourceName] at h
  split at h
  · rename_i hSlash
    obtain ⟨front, back, rfl, hFront⟩ := List.eq_append_cons_of_mem hSlash
    have hParts : ∀ part ∈ split '/' (front ++ '/' :: back), '/' ∉ part := fun part => not_mem_of_mem_split
    rw [split_append_cons hFront] at h hParts
    split at h
    · rename_i package' base' hSplit
      cases h
      rw [hSplit] at hParts
      obtain ⟨rfl, hBack⟩ := List.cons.inj hSplit
      by_cases hMore : '/' ∈ back
      · obtain ⟨middle, rest, rfl, hMiddle⟩ := List.eq_append_cons_of_mem hMore
        rw [split_append_cons hMiddle] at hBack
        exact absurd (List.cons.inj hBack).2 (split_ne_nil '/' rest)
      · rw [split_of_not_mem hMore] at hBack
        cases hBack
        exact ⟨hFront, hMore, Or.inl rfl⟩
    · cases h
  · rename_i hSlash
    cases h
    exact ⟨List.not_mem_nil, hSlash, Or.inr ⟨hSlash, rfl, rfl⟩⟩

theorem parseType_base {msgType base : Str} {arity : Arity} (h : parseType msgType = some (base, arity)) :
    base = bareMsgType msgType := by
  rw [parseType] at h
  split at h
  · cases h
  · split at h
    · rename_i hBracket
      simp only [gt_iff_lt] at h
      split at h
      · cases h
      · rename_i hParts
        split at h
        · rename_i hSuffix
          cases h
          obtain ⟨front, rfl⟩ := List.isSuffixOf_iff_suffix.mp hSuffix
          have hFront : '[' ∉ front := by
            intro hMem
            have hCount := List.count_pos_iff.mpr hMem
            rw [split_length, List.count_append] at hParts
            have hOne : (str "[]").count '[' = 1 := by decide
            omega
          have hDrop : (front ++ str "[]").dropLast.dropLast = front := by
            simp [str]
          have hPlain : ∀ c ∈ front, decide (c ≠ '[') = true := fun c hc =>
            decide_eq_true fun hEq => hFront (hEq ▸ hc)
          rw [hDrop, bareMsgType, List.takeWhile_append_of_pos hPlain]
          simp [str]
        · obtain ⟨length, _, hPair⟩ := Option.map_eq_some_iff.mp h
          cases hPair
          have hHead := split_head '[' msgType
          cases hSplit : split '[' msgType with
          | nil => exact absurd hSplit (split_ne_nil _ _)
          | cons part parts =>
            rw [hSplit] at hHead
            simpa [bareMsgType] using hHead
    · rename_i hNone
      cases h
      rw [bareMsgType, List.takeWhile_eq_self_iff.mpr]
      intro c hc
      have : c ≠ '[' := fun hEq => hNone (hEq ▸ hc)
      simpa using this

end XcRos.Msg
