import XcRos.Genpy.PlainYaml
import XcRos.Genpy.TextRoundTrip

/-! # Which messages come back

The message that is read back is the one that was printed, for any YAML library that reads the texts as it should. The
fields of its type say when they are equal.
-/

namespace XcRos.Genpy

open XcRos.Foundation XcRos.Msg

section

variable {ctx : MsgContext} {fuel : Nat} {py : Printer} {y : Yaml} {env : Classes} {unicodeWord : Char → Bool}

def RoundTrips (ctx : MsgContext) (fuel : Nat) (py : Printer) (y : Yaml) (env : Classes) (args : PyObj → PyObj) (cls : Str)
    (attrs : List (Str × PyVal)) : Prop :=
  ∃ r, roundTrip ctx py y (env.generated ctx fuel) args cls (.obj cls attrs) = some r ∧ Equals false (.obj cls attrs) r

variable {cls : Str} {spec : MsgSpec} {members : Members} {attrs : List (Str × PyVal)}

theorem textMessage_of_resolve (hStamp : isStamp cls = false) (hSpec : ctx.getRegistered cls = some spec)
    (hMembers : resolve ctx fuel spec = some members) (hSlots : members.slots.Nodup) (hPlain : members.Plain unicodeWord)
    (hCanonical : members.Canonical attrs) : TextMessage ctx fuel unicodeWord cls members attrs where
  notStamp := hStamp
  formed := ⟨hSlots, wellFormed_of_resolve fuel spec members hMembers⟩
  plain := hPlain
  generated :=
    ⟨newFresh_newInstance ctx fuel cls spec members hSpec hMembers, spec, hSpec, generated_resolve (Nat.le_refl fuel) hMembers⟩
  canonical := hCanonical

theorem TextMessage.roundTrips_iff_refilled (h : TextMessage ctx fuel unicodeWord cls members attrs)
    (hReads : y.Reads unicodeWord) (args : PyObj → PyObj) :
    RoundTrips ctx fuel py y env args cls attrs ↔ Refilled y (env.generated ctx fuel) args cls members attrs := by
  obtain ⟨hNew, spec, hSpec, hMembers⟩ := h.generated
  have hText := strifyMessage_document py h.notStamp hSpec h.formed.2 h.plain hMembers h.canonical
  have hLoad := hReads.document _ (members.legal_entries h.formed.2 h.plain attrs h.canonical)
  have hInstance : (env.generated ctx fuel).new cls = some (PyObj.ofPyVal (.obj cls members.fresh)) :=
    congrArg (Option.map PyObj.ofPyVal) hNew
  rw [RoundTrips, Refilled, roundTrip, hText, Option.bind_some, hLoad, hInstance]
  constructor
  · rintro ⟨r, hr, hEqual⟩
    obtain ⟨loaded, hLoaded, hFill⟩ := Option.bind_eq_some_iff.mp hr
    exact ⟨loaded, hLoaded, r, ok_of_toOption hFill, hEqual⟩
  · rintro ⟨loaded, hLoaded, r, hFill, hEqual⟩
    refine ⟨r, ?_, hEqual⟩
    rw [hLoaded, Option.bind_some, Option.bind_some, hFill]
    rfl

/-- A message comes back from a list of what is read if it is readable, and from what is read alone if it has not just
one field besides. -/
theorem roundTrips_iff_readable (hStamp : isStamp cls = false) (hSpec : ctx.getRegistered cls = some spec)
    (hMembers : resolve ctx fuel spec = some members) (hSlots : members.slots.Nodup) (hPlain : members.Plain unicodeWord)
    (hReads : y.Reads unicodeWord) (hCanonical : members.Canonical attrs) :
    (RoundTrips ctx fuel py y env asRead cls attrs ↔ members.Readable y attrs ∧ attrs.length ≠ 1) ∧
      (RoundTrips ctx fuel py y env inList cls attrs ↔ members.Readable y attrs) := by
  have hText := textMessage_of_resolve hStamp hSpec hMembers hSlots hPlain hCanonical
  rw [hText.roundTrips_iff_refilled hReads, hText.roundTrips_iff_refilled hReads]
  exact ⟨hText.refilled_asRead env hReads, hText.refilled_inList env hReads⟩

end

/-! ## Samples -/

def twoFields (type : String) : MsgContext :=
  loadInto asciiPython (createDefault asciiPython) (str "int32 id\n" ++ str type ++ str " data") (str "pkg/Sample")

theorem exists_twoFields {type : String} {t : Ty}
    (hFields : ((twoFields type).getRegistered (str "pkg/Sample")).map MsgSpec.fields =
      some [(str "int32", str "id"), (str type, str "data")])
    (hType : resolveType (resolve (twoFields type) 1) (twoFields type) (str type) = some t) :
    ∃ spec, (twoFields type).getRegistered (str "pkg/Sample") = some spec ∧
      resolve (twoFields type) 2 spec = some (.cons (str "id") (.simple .int32) (.cons (str "data") t .nil)) := by
  obtain ⟨spec, hSpec, hFields⟩ := Option.map_eq_some_iff.mp hFields
  refine ⟨spec, hSpec, ?_⟩
  show resolveMembers (resolve (twoFields type) 1) (twoFields type) spec.fields = _
  rw [hFields, resolveMembers, resolveMembers, hType]
  rfl

def noPrinter : Printer := ⟨fun _ => [], fun _ => none, fun _ => []⟩

def noClasses : Classes := ⟨fun _ => none, fun _ => none, fun _ _ => .error .other, fun _ => [], fun _ => []⟩

/-- With an `id`. -/
def sampleAttrs (data : PyVal) : List (Str × PyVal) := [(str "id", .int (-7)), (str "data", data)]

theorem canonical_sampleAttrs {t : Ty} {data : PyVal} (h : t.Canonical data) :
    (Members.cons (str "id") (.simple .int32) (.cons (str "data") t .nil)).Canonical (sampleAttrs data) :=
  ⟨_, _, rfl, ⟨-7, rfl, by decide⟩, _, _, rfl, h, rfl⟩

theorem plain_sampleAttrs {t : Ty} (h : t.Plain fun _ => false) :
    (Members.cons (str "id") (.simple .int32) (.cons (str "data") t .nil)).Plain fun _ => false :=
  ⟨by decide, ⟨by decide, by decide⟩, by decide, h, trivial⟩

theorem roundTrips_flags :
    RoundTrips (twoFields "bool[]") 2 noPrinter plainYaml noClasses asRead (str "pkg/Sample")
      (sampleAttrs (.list [.bool true, .bool false])) ∧
      RoundTrips (twoFields "bool[]") 2 noPrinter plainYaml noClasses inList (str "pkg/Sample")
        (sampleAttrs (.list [.bool true, .bool false])) := by
  obtain ⟨spec, hSpec, hMembers⟩ := @exists_twoFields "bool[]" (.array none (.simple .bool)) (by decide +kernel) rfl
  have hData : (Ty.array none (.simple .bool)).Canonical (.list [.bool true, .bool false]) := by
    refine ⟨_, rfl, (fun _ h => by cases h), fun w hw => ?_⟩
    obtain rfl | rfl : w = .bool true ∨ w = .bool false := by simpa using hw
    · exact ⟨true, rfl⟩
    · exact ⟨false, rfl⟩
  have hReadable : (Members.cons (str "id") (.simple .int32) (.cons (str "data") (.array none (.simple .bool)) .nil)).Readable
      plainYaml (sampleAttrs (.list [.bool true, .bool false])) :=
    ⟨by decide, trivial, by decide, fun _ _ => trivial, trivial⟩
  have hIff := @roundTrips_iff_readable _ 2 noPrinter plainYaml noClasses _ _ _ _ _ (by decide) hSpec hMembers
    (by decide) (plain_sampleAttrs ⟨by decide, by decide⟩) (plainYaml_reads _) (canonical_sampleAttrs hData)
  exact ⟨hIff.1.mpr ⟨hReadable, by decide⟩, hIff.2.mpr hReadable⟩

/-- Bytes are read as a string. -/
theorem not_roundTrips_bytes :
    ¬ RoundTrips (twoFields "uint8[]") 2 noPrinter plainYaml noClasses asRead (str "pkg/Sample")
      (sampleAttrs (.bytes [1, 2, 3])) ∧
      ¬ RoundTrips (twoFields "uint8[]") 2 noPrinter plainYaml noClasses inList (str "pkg/Sample")
        (sampleAttrs (.bytes [1, 2, 3])) := by
  obtain ⟨spec, hSpec, hMembers⟩ := @exists_twoFields "uint8[]" (.array none (.simple .uint8)) (by decide +kernel) rfl
  have hData : (Ty.array none (.simple .uint8)).Canonical (.bytes [1, 2, 3]) := ⟨_, rfl, fun _ h => by cases h⟩
  have hText : TextMessage _ 2 _ _ _ _ := textMessage_of_resolve (by decide) hSpec hMembers (by decide)
    (plain_sampleAttrs ⟨by decide, by decide⟩) (canonical_sampleAttrs hData)
  have hReads := plainYaml_reads fun _ => false
  rw [hText.roundTrips_iff_refilled hReads, hText.roundTrips_iff_refilled hReads,
    hText.refilled_asRead noClasses hReads, hText.refilled_inList noClasses hReads]
  exact ⟨fun h => h.1.2.2.2.1, fun h => h.2.2.2.1⟩

end XcRos.Genpy
