import XcRos.Msg.Layout

/-! # The md5 of a service

`compute_md5` feeds the text of the request and then that of the response to one digest. Each text
is stripped of its last newline, so nothing stands between the halves.
-/

namespace XcRos.Msg

open XcRos.Foundation

/-- The halves of a `SrvSpec`. -/
structure SrvSpec where
  request : MsgSpec
  response : MsgSpec

/-- `compute_md5` of a service. -/
def computeSrvMd5 (hash : Str → Str) (ctx : MsgContext) (fuel : Nat) (srv : SrvSpec) : Option Str :=
  match computeMd5Text (computeMd5 hash ctx fuel) ctx srv.request,
    computeMd5Text (computeMd5 hash ctx fuel) ctx srv.response with
  | some request, some response => some (hash (request ++ response))
  | _, _ => none

def SrvMd5Is (hash : Str → Str) (ctx : MsgContext) (srv : SrvSpec) (md5 : Str) : Prop :=
  ∃ fuel, computeSrvMd5 hash ctx fuel srv = some md5

/-- `compute_md5_text` returns this text. -/
def Md5TextIs (hash : Str → Str) (ctx : MsgContext) (spec : MsgSpec) (text : Str) : Prop :=
  ∃ fuel, computeMd5Text (computeMd5 hash ctx fuel) ctx spec = some text

variable {hash : Str → Str} {ctx : MsgContext}

theorem computeMd5Text_le {fuel more : Nat} (hLe : fuel ≤ more) {spec : MsgSpec} {text : Str}
    (h : computeMd5Text (computeMd5 hash ctx fuel) ctx spec = some text) :
    computeMd5Text (computeMd5 hash ctx more) ctx spec = some text := by
  obtain ⟨lines, hLines, rfl⟩ := computeMd5Text_eq_some_iff.mp h
  apply computeMd5Text_eq_some_iff.mpr
  refine ⟨lines, hLines.imp fun field line hLine => ?_, rfl⟩
  obtain ⟨written, hWritten, rfl⟩ := Option.map_eq_some_iff.mp hLine
  apply Option.map_eq_some_iff.mpr
  refine ⟨written, writtenType_eq_some_iff.mpr ?_, rfl⟩
  obtain hBuiltin | ⟨hMessage, sub, hSub, hMd5⟩ := writtenType_eq_some_iff.mp hWritten
  · exact Or.inl hBuiltin
  · exact Or.inr ⟨hMessage, sub, hSub, fuelled_le computeMd5_monotonic hLe hMd5⟩

theorem Md5TextIs.unique {spec : MsgSpec} {text text' : Str} (h : Md5TextIs hash ctx spec text)
    (h' : Md5TextIs hash ctx spec text') : text = text' := by
  obtain ⟨fuel, hText⟩ := h
  obtain ⟨fuel', hText'⟩ := h'
  have hMax := computeMd5Text_le (Nat.le_max_left fuel fuel') hText
  have hMax' := computeMd5Text_le (Nat.le_max_right fuel fuel') hText'
  exact Option.some.inj (hMax.symm.trans hMax')

theorem Resolvable.md5Text (hash : Str → Str) {spec : MsgSpec} (h : Resolvable ctx spec) :
    ∃ text, Md5TextIs hash ctx spec text := by
  obtain ⟨md5, fuel, hMd5⟩ := (h.md5 : ∃ md5, Md5Is hash ctx spec md5)
  cases fuel with
  | zero => cases hMd5
  | succ fuel =>
    obtain ⟨text, hText, _⟩ := Option.map_eq_some_iff.mp hMd5
    exact ⟨text, fuel, hText⟩

theorem srvMd5Is_iff {srv : SrvSpec} {md5 : Str} :
    SrvMd5Is hash ctx srv md5 ↔
      ∃ request response, Md5TextIs hash ctx srv.request request ∧ Md5TextIs hash ctx srv.response response ∧
        md5 = hash (request ++ response) := by
  constructor
  · rintro ⟨fuel, h⟩
    rw [computeSrvMd5] at h
    split at h
    · rename_i request response hRequest hResponse
      cases h
      exact ⟨request, response, ⟨fuel, hRequest⟩, ⟨fuel, hResponse⟩, rfl⟩
    · cases h
  · rintro ⟨request, response, ⟨fuel, hRequest⟩, ⟨fuel', hResponse⟩, rfl⟩
    refine ⟨max fuel fuel', ?_⟩
    rw [computeSrvMd5, computeMd5Text_le (Nat.le_max_left fuel fuel') hRequest,
      computeMd5Text_le (Nat.le_max_right fuel fuel') hResponse]

/-- Equal digests leave open where the request ends. -/
theorem equal_md5_equal_halves_iff (hHash : Function.Injective hash) {ctx' : MsgContext} {srv srv' : SrvSpec}
    (hRequest : Resolvable ctx srv.request) (hResponse : Resolvable ctx srv.response)
    (hRequest' : Resolvable ctx' srv'.request) (hResponse' : Resolvable ctx' srv'.response) :
    ∃ md5 md5' request response request' response',
      SrvMd5Is hash ctx srv md5 ∧ SrvMd5Is hash ctx' srv' md5' ∧
      Md5TextIs hash ctx srv.request request ∧ Md5TextIs hash ctx srv.response response ∧
      Md5TextIs hash ctx' srv'.request request' ∧ Md5TextIs hash ctx' srv'.response response' ∧
      ((md5 = md5' → request = request' ∧ response = response') ↔
        (request.length = request'.length ∨ request ++ response ≠ request' ++ response')) := by
  obtain ⟨request, hText⟩ := hRequest.md5Text hash
  obtain ⟨response, hRest⟩ := hResponse.md5Text hash
  obtain ⟨request', hText'⟩ := hRequest'.md5Text hash
  obtain ⟨response', hRest'⟩ := hResponse'.md5Text hash
  refine ⟨_, _, request, response, request', response', srvMd5Is_iff.mpr ⟨_, _, hText, hRest, rfl⟩,
    srvMd5Is_iff.mpr ⟨_, _, hText', hRest', rfl⟩, hText, hRest, hText', hRest', ?_⟩
  constructor
  · intro hHalves
    by_cases hSame : request ++ response = request' ++ response'
    · left
      rw [(hHalves (by rw [hSame])).1]
    · exact Or.inr hSame
  · rintro hCut hMd5
    have hSame := hHash hMd5
    obtain hLength | hOther := hCut
    · exact List.append_inj hSame hLength
    · exact absurd hSame hOther

/-! ## A field that is divided in another way -/

theorem oneField_sameLength (type name : String) : [str type].length = [str name].length :=
  rfl

theorem oneField_distinctNames (name : String) : [str name].Nodup :=
  List.pairwise_singleton _ _

theorem oneField_parsedFields {type : String} (hParse : (parseType (str type)).isSome) :
    ∀ t ∈ [str type], (parseType t).isSome :=
  List.forall_mem_singleton.mpr hParse

def oneField (type name : String) (hParse : (parseType (str type)).isSome) : MsgSpec where
  types := [str type]
  names := [str name]
  constants := []
  text := str type ++ ' ' :: str name
  fullName := []
  shortName := []
  package := []
  sameLength := oneField_sameLength type name
  distinctNames := oneField_distinctNames name
  parsedFields := oneField_parsedFields hParse

/-- `int32 a` and `uint8 b`. -/
def sampleSrv : SrvSpec := ⟨oneField "int32" "a" (by decide), oneField "uint8" "b" (by decide)⟩

/-- `int32 au` and `int8 b`. -/
def shiftedSrv : SrvSpec := ⟨oneField "int32" "au" (by decide), oneField "int8" "b" (by decide)⟩

def srvDigest : Str := str "ca89c1789860b562f949e47e55ae4aca"

def srvHash (text : Str) : Str := if text = str "int32 auint8 b" then srvDigest else ownDigest text

theorem srvHash_injective : Function.Injective srvHash := by
  apply injective_override ownDigest_injective
  intro text hEq
  have hMem : '8' ∈ srvDigest := by decide
  rw [← hEq] at hMem
  have := mem_ownDigest hMem
  revert this
  decide

theorem oneField_resolvable {type name : String} (hParse : (parseType (str type)).isSome)
    (hBuiltin : isBuiltin (bareMsgType (str type)) = true) :
    Resolvable MsgContext.empty (oneField type name hParse) := by
  have hType : ∀ t ∈ (oneField type name hParse).types, isBuiltin (bareMsgType t) = true := by
    intro t ht
    rw [List.mem_singleton.mp ht]
    exact hBuiltin
  apply Hereditary.intro
  · intro t ht hMessage
    rw [hType t ht] at hMessage
    cases hMessage
  · intro sub hSub
    obtain ⟨t, ht, _⟩ := List.mem_filterMap.mp hSub
    obtain ⟨hMem, hMessage⟩ := List.mem_filter.mp ht
    rw [hType t hMem] at hMessage
    cases hMessage

theorem equal_md5_equal_halves_sample :
    ∃ md5 md5' request response request' response',
      SrvMd5Is srvHash .empty sampleSrv md5 ∧ SrvMd5Is srvHash .empty shiftedSrv md5' ∧
      Md5TextIs srvHash .empty sampleSrv.request request ∧ Md5TextIs srvHash .empty sampleSrv.response response ∧
      Md5TextIs srvHash .empty shiftedSrv.request request' ∧
      Md5TextIs srvHash .empty shiftedSrv.response response' ∧
      ((md5 = md5' → request = request' ∧ response = response') ↔
        (request.length = request'.length ∨ request ++ response ≠ request' ++ response')) :=
  equal_md5_equal_halves_iff srvHash_injective (oneField_resolvable (by decide) (by decide))
    (oneField_resolvable (by decide) (by decide)) (oneField_resolvable (by decide) (by decide))
    (oneField_resolvable (by decide) (by decide))

/-- Both services pass for one another, although one responds with a `uint8` and the other with an
`int8`. -/
theorem equal_md5_shifted :
    Function.Injective srvHash ∧ SrvMd5Is srvHash .empty sampleSrv srvDigest ∧
      SrvMd5Is srvHash .empty shiftedSrv srvDigest ∧
      Md5TextIs srvHash .empty sampleSrv.request (str "int32 a") ∧
      Md5TextIs srvHash .empty shiftedSrv.request (str "int32 au") ∧
      LayoutIs .empty sampleSrv.response (.message [(.scalar, .builtin (str "uint8"))]) ∧
      LayoutIs .empty shiftedSrv.response (.message [(.scalar, .builtin (str "int8"))]) :=
  ⟨srvHash_injective, ⟨1, by decide⟩, ⟨1, by decide⟩, ⟨1, by decide⟩, ⟨1, by decide⟩, ⟨1, rfl⟩, ⟨1, rfl⟩⟩

end XcRos.Msg
