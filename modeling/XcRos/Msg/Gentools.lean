import XcRos.Foundation.Fuel
import XcRos.Foundation.Lines
import XcRos.Msg.Spec

/-! # The md5 of a message

`compute_md5` hashes a text with one line for each constant and field; an embedded type is written
as the md5 of its own specification. The recursion takes fuel: it returns if the fuel exceeds the
depth to which types are embedded.
-/

namespace XcRos.Msg

open XcRos.Foundation

def constantLine (c : Constant) : Str := c.type ++ ' ' :: (c.name ++ '=' :: c.valText)

def writtenType (subMd5 : MsgSpec → Option Str) (ctx : MsgContext) (type : Str) : Option Str :=
  let msgType := bareMsgType type
  if isBuiltin msgType then some type
  else
    match packageResourceName msgType with
    | none => none
    | some _ => (ctx.getRegistered msgType).bind subMd5

def fieldLine (subMd5 : MsgSpec → Option Str) (ctx : MsgContext) (field : Str × Str) : Option Str :=
  (writtenType subMd5 ctx field.1).map fun written => written ++ ' ' :: field.2

def computeMd5Text (subMd5 : MsgSpec → Option Str) (ctx : MsgContext) (spec : MsgSpec) : Option Str :=
  (spec.fields.mapM (fieldLine subMd5 ctx)).map fun lines =>
    strip (terminated '\n' (spec.constants.map constantLine ++ lines))

/-- `compute_md5` of a message; `hash` is `hashlib.md5` with `hexdigest`. -/
def computeMd5 (hash : Str → Str) (ctx : MsgContext) : Nat → MsgSpec → Option Str :=
  fuelled fun subMd5 spec => (computeMd5Text subMd5 ctx spec).map hash

/-- `compute_md5` returns this value. -/
def Md5Is (hash : Str → Str) (ctx : MsgContext) (spec : MsgSpec) (md5 : Str) : Prop :=
  ∃ fuel, computeMd5 hash ctx fuel spec = some md5

/-! ## Embedded types -/

def embedded (ctx : MsgContext) (spec : MsgSpec) : List MsgSpec :=
  (spec.types.filter fun type => !isBuiltin (bareMsgType type)).filterMap fun type =>
    ctx.getRegistered (bareMsgType type)

def AllRegistered (ctx : MsgContext) (spec : MsgSpec) : Prop :=
  ∀ type ∈ spec.types, isBuiltin (bareMsgType type) = false → (ctx.getRegistered (bareMsgType type)).isSome

def Resolvable (ctx : MsgContext) (spec : MsgSpec) : Prop :=
  Hereditary (embedded ctx) (AllRegistered ctx) spec

theorem mem_embedded {ctx : MsgContext} {spec sub : MsgSpec} {type : Str} (hType : type ∈ spec.types)
    (hMessage : isBuiltin (bareMsgType type) = false) (hSub : ctx.getRegistered (bareMsgType type) = some sub) :
    sub ∈ embedded ctx spec := by
  refine List.mem_filterMap.mpr ⟨type, List.mem_filter.mpr ⟨hType, ?_⟩, hSub⟩
  rw [hMessage]
  rfl

theorem bareMsgType_bareMsgType (type : Str) : bareMsgType (bareMsgType type) = bareMsgType type :=
  List.takeWhile_idem

theorem packageResourceName_of_registered {ctx : MsgContext} {type : Str} {sub : MsgSpec}
    (h : ctx.getRegistered (bareMsgType type) = some sub) :
    ∃ key, packageResourceName (bareMsgType type) = some key := by
  rw [MsgContext.getRegistered, bareMsgType_bareMsgType] at h
  obtain ⟨key, hKey, _⟩ := Option.bind_eq_some_iff.mp h
  exact ⟨key, hKey⟩

variable {hash : Str → Str} {ctx : MsgContext}

theorem writtenType_eq_some_iff {subMd5 : MsgSpec → Option Str} {type written : Str} :
    writtenType subMd5 ctx type = some written ↔
      (isBuiltin (bareMsgType type) = true ∧ written = type) ∨
        (isBuiltin (bareMsgType type) = false ∧
          ∃ sub, ctx.getRegistered (bareMsgType type) = some sub ∧ subMd5 sub = some written) := by
  rw [writtenType]
  cases hBuiltin : isBuiltin (bareMsgType type) with
  | true => simp [eq_comm]
  | false =>
    simp only [Bool.false_eq_true, if_false, false_and, true_and, false_or]
    constructor
    · intro h
      split at h
      · cases h
      · exact Option.bind_eq_some_iff.mp h
    · rintro ⟨sub, hSub, hMd5⟩
      obtain ⟨key, hKey⟩ := packageResourceName_of_registered hSub
      rw [hKey]
      exact Option.bind_eq_some_iff.mpr ⟨sub, hSub, hMd5⟩

theorem computeMd5Text_eq_some_iff {subMd5 : MsgSpec → Option Str} {spec : MsgSpec} {text : Str} :
    computeMd5Text subMd5 ctx spec = some text ↔
      ∃ lines, List.Forall₂ (fun field line => fieldLine subMd5 ctx field = some line) spec.fields lines ∧
        text = strip (terminated '\n' (spec.constants.map constantLine ++ lines)) := by
  simp only [computeMd5Text, Option.map_eq_some_iff, mapM_eq_some_iff]
  exact exists_congr fun lines => and_congr_right fun _ => eq_comm

theorem computeMd5_monotonic :
    Monotonic fun subMd5 spec => (computeMd5Text subMd5 ctx spec).map hash := by
  intro f g h spec md5 hMd5
  obtain ⟨text, hText, rfl⟩ := Option.map_eq_some_iff.mp hMd5
  obtain ⟨lines, hLines, rfl⟩ := computeMd5Text_eq_some_iff.mp hText
  refine Option.map_eq_some_iff.mpr ⟨_, computeMd5Text_eq_some_iff.mpr ⟨lines, ?_, rfl⟩, rfl⟩
  refine hLines.imp fun field line hLine => ?_
  obtain ⟨written, hWritten, rfl⟩ := Option.map_eq_some_iff.mp hLine
  refine Option.map_eq_some_iff.mpr ⟨written, writtenType_eq_some_iff.mpr ?_, rfl⟩
  rcases writtenType_eq_some_iff.mp hWritten with hBuiltin | ⟨hMessage, sub, hSub, hSubMd5⟩
  · exact .inl hBuiltin
  · exact .inr ⟨hMessage, sub, hSub, h sub written hSubMd5⟩

theorem Md5Is.unique {spec : MsgSpec} {md5 md5' : Str} (h : Md5Is hash ctx spec md5)
    (h' : Md5Is hash ctx spec md5') : md5 = md5' := by
  obtain ⟨fuel, hMd5⟩ := h
  obtain ⟨fuel', hMd5'⟩ := h'
  exact fuelled_unique computeMd5_monotonic hMd5 hMd5'

theorem Resolvable.md5 {spec : MsgSpec} (h : Resolvable ctx spec) : ∃ md5, Md5Is hash ctx spec md5 := by
  have hReturns : ∀ (f : MsgSpec → Option Str) (spec : MsgSpec), AllRegistered ctx spec →
      (∀ sub ∈ embedded ctx spec, (f sub).isSome) → ((computeMd5Text f ctx spec).map hash).isSome := by
    intro f spec hAll hSubs
    have hLine : ∀ field ∈ spec.fields, ∃ line, fieldLine f ctx field = some line := by
      intro field hField
      have hType := (List.of_mem_zip hField).1
      cases hBuiltin : isBuiltin (bareMsgType field.1) with
      | true =>
        have hWritten : writtenType f ctx field.1 = some field.1 :=
          writtenType_eq_some_iff.mpr (.inl ⟨hBuiltin, rfl⟩)
        exact ⟨_, Option.map_eq_some_iff.mpr ⟨field.1, hWritten, rfl⟩⟩
      | false =>
        obtain ⟨sub, hSub⟩ := Option.isSome_iff_exists.mp (hAll field.1 hType hBuiltin)
        obtain ⟨md5, hMd5⟩ := Option.isSome_iff_exists.mp (hSubs sub (mem_embedded hType hBuiltin hSub))
        have hWritten := writtenType_eq_some_iff |>.mpr (.inr ⟨hBuiltin, sub, hSub, hMd5⟩)
        exact ⟨_, Option.map_eq_some_iff.mpr ⟨md5, hWritten, rfl⟩⟩
    obtain ⟨lines, hLines⟩ := exists_forall₂ hLine
    rw [Option.isSome_map, computeMd5Text_eq_some_iff.mpr ⟨lines, hLines, rfl⟩]
    rfl
  obtain ⟨fuel, md5, hMd5⟩ := exists_fuelled computeMd5_monotonic hReturns h
  exact ⟨md5, fuel, hMd5⟩

end XcRos.Msg
