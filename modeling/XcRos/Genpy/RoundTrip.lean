import XcRos.Genpy.TextFields
import XcRos.Genpy.Underfill

/-! # The two methods of a class

What `serialize` writes of a canonical value is its encoding, and `deserialize` reads this to its end and gives an
equal message, unless less than the encoding is written, an array of `bool` is in the value, or a float that is NaN.
-/

namespace XcRos.Genpy

open XcRos.Foundation XcRos.Msg

/-! ## What comes back is equal -/

theorem Simple.eqv_self {s : Simple} {v : PyVal} (h : s.Canonical v) (loose : Bool) :
    PyVal.eqv loose v v = true ↔ isNaN v = false := by
  have hInt : ∀ signed width, (∃ n, v = .int n ∧ Code.Fits signed width n) →
      (PyVal.eqv loose v v = true ↔ isNaN v = false) := by
    rintro signed width ⟨n, rfl, _⟩
    rw [PyVal.eqv]
    exact iff_of_true (beq_self_eq_true n) rfl
  cases s with
  | bool =>
    obtain ⟨b, rfl⟩ := h
    rw [PyVal.eqv]
    exact iff_of_true (beq_self_eq_true b) rfl
  | float32 =>
    obtain ⟨bits, rfl⟩ := h
    rw [PyVal.eqv, PyVal.singleEq, isNaN, beq_self_eq_true]
    cases PyVal.singleNaN bits <;> simp
  | float64 =>
    obtain ⟨bits, rfl⟩ := h
    rw [PyVal.eqv, PyVal.doubleEq, isNaN, beq_self_eq_true]
    cases PyVal.doubleNaN bits <;> simp
  | int8 | uint8 | int16 | uint16 | int32 | uint32 | int64 | uint64 | char | byte => exact hInt _ _ h

theorem eqvEach_map {vs : List PyVal} {f : PyVal → PyVal} {ok : PyVal → Prop}
    (h : ∀ v ∈ vs, (PyVal.eqv false v (f v) = true ↔ ok v)) : PyVal.eqvEach vs (vs.map f) = true ↔ ∀ v ∈ vs, ok v := by
  induction vs with
  | nil =>
    rw [List.map_nil, PyVal.eqvEach]
    exact iff_of_true rfl fun _ h => absurd h List.not_mem_nil
  | cons v vs ih =>
    obtain ⟨hHead, hTail⟩ := List.forall_mem_cons.mp h
    rw [List.map_cons, PyVal.eqvEach, Bool.and_eq_true, hHead, ih hTail, List.forall_mem_cons]

theorem eqv_readBack_bytes {length : Option Nat} {t : Ty} (hByte : t.isByte = true) (bs : Bytes) :
    PyVal.eqv true (.bytes bs) ((Ty.array length t).readBack (.bytes bs)) = true ↔ (Ty.array length t).Comparable (.bytes bs) := by
  have hEqual : PyVal.eqv true (.bytes bs) (.bytes bs) = true := by
    rw [PyVal.eqv]
    exact beq_self_eq_true bs
  cases t with
  | simple s => cases s <;> first | exact iff_of_true hEqual trivial | cases hByte
  | string | array | message => cases hByte

theorem eqv_readBack_numbers {length : Option Nat} {s : Simple} {vs : List PyVal} (h : ∀ v ∈ vs, s.Canonical v) :
    PyVal.eqv true (.list vs) ((Ty.array length (.simple s)).readBack (.list vs)) = true ↔
      (Ty.array length (.simple s)).Comparable (.list vs) := by
  have hEach : PyVal.eqvEach vs vs = true ↔ ∀ v ∈ vs, isNaN v = false := by
    have hMap := @eqvEach_map vs id (fun v => isNaN v = false) fun v hv => Simple.eqv_self (h v hv) false
    rwa [List.map_id] at hMap
  have hTuple : PyVal.eqv true (.list vs) (.tuple vs) = true ↔ ∀ v ∈ vs, isNaN v = false := by
    rw [PyVal.eqv, Bool.true_and]
    exact hEach
  cases s with
  | bool => exact iff_of_false (by simp [Ty.readBack, PyVal.eqv]) id
  | int8 | uint8 | int16 | uint16 | int32 | uint32 | int64 | uint64 | char | byte | float32 | float64 => exact hTuple

mutual

theorem Ty.eqv_readBack : (t : Ty) → t.WellFormed → (v : PyVal) → t.Canonical v → (loose : Bool) →
    (t.isArray = true → loose = true) → (PyVal.eqv loose v (t.readBack v) = true ↔ t.Comparable v)
  | .simple s, _, v, h, loose, _ => Simple.eqv_self h loose
  | .string, _, v, h, loose, _ => by
    obtain ⟨text, rfl⟩ := h
    refine iff_of_true ?_ trivial
    show PyVal.eqv loose (.str text) (.str text) = true
    rw [PyVal.eqv]
    exact beq_self_eq_true text
  | .array length t, hFormed, v, h, loose, hLoose => by
    obtain rfl := hLoose rfl
    rw [Ty.Canonical] at h
    split at h
    · rename_i hByte
      obtain ⟨bs, rfl, _⟩ := h
      exact eqv_readBack_bytes hByte bs
    · obtain ⟨vs, rfl, _, hEach⟩ := h
      have hElements : ∀ w ∈ vs, (PyVal.eqv false w (t.readBack w) = true ↔ t.Comparable w) := fun w hw =>
        t.eqv_readBack hFormed.2 w (hEach w hw) false fun hArray => by rw [hFormed.1] at hArray; cases hArray
      have hList : PyVal.eqv true (.list vs) (.list (vs.map t.readBack)) = true ↔ ∀ w ∈ vs, t.Comparable w := by
        rw [PyVal.eqv]
        exact eqvEach_map hElements
      cases t with
      | simple s => exact eqv_readBack_numbers hEach
      | string | array | message => exact hList
  | .message cls members, hFormed, v, h, loose, _ => by
    obtain ⟨attrs, rfl, hAttrs, _⟩ := h
    rw [Ty.readBack, PyVal.eqv, beq_self_eq_true, Bool.true_and, Ty.Comparable]
    exact members.eqvAttrs_readBack hFormed.1 hFormed.2 attrs hAttrs

theorem Members.eqvAttrs_readBack : (members : Members) → members.slots.Nodup → members.WellFormed →
    (attrs : List (Str × PyVal)) → members.Canonical attrs →
    (PyVal.eqvAttrs attrs (members.readBack attrs) = true ↔ members.Comparable attrs)
  | .nil, _, _, attrs, h => by
    obtain rfl := h
    exact iff_of_true rfl trivial
  | .cons name t rest, hSlots, hFormed, attrs, h => by
    obtain ⟨v, more, rfl, hv, hMore⟩ := h
    obtain ⟨hFresh, hRest⟩ := List.nodup_cons.mp hSlots
    have hNames : more.map Prod.fst = rest.slots := Members.keys_of_shaped (rest.shaped_of_canonical more hMore)
    rw [Members.readBack, PyVal.eqvAttrs, List.lookup_cons_self, eqvAttrs_behind (hNames ▸ hFresh), Bool.and_eq_true,
      rest.eqvAttrs_readBack hRest hFormed.2 more hMore, Members.Comparable]
    exact and_congr_left' (t.eqv_readBack hFormed.1 v hv true fun _ => rfl)

end

/-! ## Times in canonical form -/

theorem canon_self_iff {cls : Str} {attrs : List (Str × PyVal)} :
    (PyVal.obj cls attrs).canon = some (.obj cls attrs) ↔
      ∃ secs nsecs, attrs.lookup (str "secs") = some (.int secs) ∧ attrs.lookup (str "nsecs") = some (.int nsecs) ∧
        nsecs / 1000000000 = 0 := by
  constructor
  · intro h
    rw [PyVal.canon] at h
    split at h
    · rename_i secs nsecs hSecs hNsecs
      obtain ⟨attrs', hFirst, hMap⟩ := Option.bind_eq_some_iff.mp h
      obtain ⟨attrs'', hSecond, hSame⟩ := Option.map_eq_some_iff.mp hMap
      cases hSame
      obtain ⟨_, new, _, hNew, hNow⟩ := lookup_modifyField hSecond
      cases hNew
      have hEq := PyVal.int.inj (Option.some.inj (hNow.symm.trans hNsecs))
      exact ⟨secs, nsecs, hSecs, hNsecs, by omega⟩
    · cases h
  · rintro ⟨secs, nsecs, hSecs, hNsecs, hLess⟩
    have hFirst : modifyField (str "secs") (fun _ => some (.int (secs + 0))) attrs = some attrs := by
      rw [modifyField_congr hSecs (show _ = some (PyVal.int secs) by rw [add_zero]), modifyField_some hSecs]
    have hSecond : modifyField (str "nsecs") (fun _ => some (.int (nsecs - 0 * 1000000000))) attrs = some attrs := by
      rw [modifyField_congr hNsecs (show _ = some (PyVal.int nsecs) by rw [zero_mul, sub_zero]), modifyField_some hNsecs]
    rw [PyVal.canon, hSecs, hNsecs]
    dsimp only
    rw [hLess, hFirst, Option.bind_some, hSecond]
    rfl

theorem Ty.readBack_int (t : Ty) (n : Int) : t.readBack (.int n) = .int n := by
  cases t with
  | array length t =>
    cases t with
    | simple s => cases s <;> rfl
    | string | array | message => rfl
  | simple | string | message => rfl

theorem Members.lookup_readBack_int (members : Members) {attrs : List (Str × PyVal)} (h : members.Canonical attrs)
    {name : Str} {n : Int} (hLookup : attrs.lookup name = some (.int n)) :
    (members.readBack attrs).lookup name = some (.int n) := by
  induction members using Members.listInduction generalizing attrs with
  | nil =>
    obtain rfl := h
    cases hLookup
  | cons slot t rest ih =>
    obtain ⟨v, more, rfl, _, hMore⟩ := h
    rw [Members.readBack, List.lookup_cons]
    rw [List.lookup_cons] at hLookup
    split at hLookup
    · cases hLookup
      rw [t.readBack_int]
    · exact ih hMore hLookup

section

variable {ctx : MsgContext} {resolves : MsgSpec → Option Members}

theorem resolveType_stamp {type : Str} (hStamp : type = str "time" ∨ type = str "duration") {t : Ty}
    (h : resolveType resolves ctx type = some t) : ∃ members, t = .message type members := by
  have hParse : parseType type = some (type, .scalar) := by obtain rfl | rfl := hStamp <;> decide
  have hSimple : simpleOf type = none := by obtain rfl | rfl := hStamp <;> decide
  have hString : type ≠ str "string" := by obtain rfl | rfl := hStamp <;> decide
  cases resolved h with
  | scalar _ _ hBase =>
    cases hBase with
    | simple hIs =>
      rw [hSimple] at hIs
      cases hIs
    | string => exact absurd rfl hString
    | message => exact ⟨_, rfl⟩
  | array hOther hArity =>
    rw [hParse] at hOther
    cases hOther
    exact absurd rfl hArity

theorem slots_of_resolveMembers {fields : List (Str × Str)} {members : Members}
    (h : resolveMembers resolves ctx fields = some members) :
    members.slots = fields.map fun field => remapReserved field.2 := by
  induction fields generalizing members with
  | nil =>
    cases h
    rfl
  | cons field fields ih =>
    obtain ⟨t, _, hRest⟩ := Option.bind_eq_some_iff.mp h
    obtain ⟨rest, hTail, rfl⟩ := Option.map_eq_some_iff.mp hRest
    rw [List.map_cons, ← ih hTail]
    rfl

theorem canon_slots {fields : List (Str × Str)} {members : Members} (h : resolveMembers resolves ctx fields = some members)
    (hSlots : members.slots.Nodup) {attrs : List (Str × PyVal)} (hCanonical : members.Canonical attrs) :
    ∀ field ∈ fields, field.1 = str "time" ∨ field.1 = str "duration" →
      ∃ w, (members.readBack attrs).lookup (remapReserved field.2) = some w ∧ w.canon = some w := by
  induction fields generalizing members attrs with
  | nil => exact fun _ h => absurd h List.not_mem_nil
  | cons field fields ih =>
    obtain ⟨t, hType, hRest⟩ := Option.bind_eq_some_iff.mp h
    obtain ⟨rest, hTail, rfl⟩ := Option.map_eq_some_iff.mp hRest
    obtain ⟨v, more, rfl, hv, hMore⟩ := hCanonical
    obtain ⟨hFresh, hNodup⟩ := List.nodup_cons.mp hSlots
    refine List.forall_mem_cons.mpr ⟨fun hStamp => ?_, fun other hOther hStamp => ?_⟩
    · obtain ⟨parts, rfl⟩ := resolveType_stamp hStamp hType
      obtain ⟨inner, rfl, hInner, hCanon⟩ := hv
      refine ⟨_, List.lookup_cons_self, ?_⟩
      obtain ⟨secs, nsecs, hSecs, hNsecs, hLess⟩ := canon_self_iff.mp (hCanon hStamp)
      exact canon_self_iff.mpr ⟨secs, nsecs, parts.lookup_readBack_int hInner hSecs,
        parts.lookup_readBack_int hInner hNsecs, hLess⟩
    · obtain ⟨w, hw, hCanon⟩ := ih hTail hNodup hMore other hOther hStamp
      have hNe : (remapReserved other.2 == remapReserved field.2) = false := by
        refine beq_eq_false_iff_ne.mpr fun hEq => hFresh ?_
        have hMem : remapReserved field.2 ∈ rest.slots := by
          rw [slots_of_resolveMembers hTail, ← hEq]
          exact List.mem_map.mpr ⟨other, hOther, rfl⟩
        exact hMem
      exact ⟨w, by rw [Members.readBack, List.lookup_cons, hNe]; exact hw, hCanon⟩

end

theorem exec_canon_same (env : Env) {f : Frame} {path : Path} {v w : PyVal} (hSelf : f.valueOf .self = some v)
    (hPart : v.at? path = some w) (hCanon : w.canon = some w) : (Stmt.canon ⟨.self, path⟩).exec env f = some f := by
  have hVar : f.vars .self = some (.value v) := by
    rw [Frame.valueOf] at hSelf
    split at hSelf
    · rename_i hVar
      rw [hVar, Option.some.inj hSelf]
    · cases hSelf
  have hSame : f.bind .self (.value v) = f := by
    rw [Frame.bind, ← hVar, Function.update_eq_self]
  rw [Stmt.exec, Frame.modify, Frame.place, hVar, Option.bind_some]
  dsimp only
  rw [hSelf, Option.bind_some, PyVal.modify_same hPart hCanon, Option.map_some, hSame]

section

variable {ctx : MsgContext} {fuel : Nat} {spec : MsgSpec} {members : Members}

theorem run_postDeserialize_canonical (env : Env) (h : resolve ctx fuel spec = some members) (hSlots : members.slots.Nodup)
    {attrs : List (Str × PyVal)} (hCanonical : members.Canonical attrs) {f : Frame} {cls : Str}
    (hSelf : f.valueOf .self = some (.obj cls (members.readBack attrs))) :
    runAll env (postDeserialize (makePythonSafe (specFields spec))) f = .ok f := by
  have hFields : makePythonSafe (specFields spec) = spec.fields.map fun field => (field.1, [remapReserved field.2]) := by
    rw [makePythonSafe, specFields, List.map_map]
    rfl
  have hEach : ∀ field ∈ makePythonSafe (specFields spec), field.1 = str "time" ∨ field.1 = str "duration" →
      (Stmt.canon ⟨.self, field.2⟩).exec env f = some f := by
    rw [hFields]
    intro field hField hStamp
    obtain ⟨own, hOwn, rfl⟩ := List.mem_map.mp hField
    cases fuel with
    | zero => cases h
    | succ fuel =>
      obtain ⟨w, hw, hCanon⟩ := canon_slots (show resolveMembers _ ctx spec.fields = _ from h) hSlots hCanonical own hOwn hStamp
      exact exec_canon_same env hSelf (by rw [at?_cons, hw]; rfl) hCanon
  rw [postDeserialize]
  generalize makePythonSafe (specFields spec) = fields at hEach
  induction fields with
  | nil => rfl
  | cons field fields ih =>
    obtain ⟨hHead, hTail⟩ := List.forall_mem_cons.mp hEach
    rw [List.filter_cons]
    split
    · rename_i hStamp
      rw [List.map_cons, runAll, Stmt.run, hHead (of_decide_eq_true hStamp)]
      exact ih hTail
    · exact ih hTail

/-! ## The round trip -/

/-- The bytes are the encoding, and reading them goes to their end and gives an equal message. -/
def RoundTripped (ctx : MsgContext) (fuel : Nat) (writer reader : List Stmt) (members : Members) (cls : Str)
    (attrs olds : List (Str × PyVal)) : Prop :=
  serialize ⟨[], newInstance ctx fuel⟩ writer (.obj cls attrs) = some (members.encoding attrs) ∧
    ∃ f m, runAll ⟨members.encoding attrs, newInstance ctx fuel⟩ reader (.method (.obj cls olds)) = .ok f ∧
      f.stop = (members.encoding attrs).length ∧
      deserialize ⟨members.encoding attrs, newInstance ctx fuel⟩ reader (.obj cls olds) = .ok m ∧
      PyVal.eqv false (.obj cls attrs) m = true

theorem roundTripped_iff_of_methods (h : resolve ctx fuel spec = some members) (hSlots : members.slots.Nodup)
    {writer reader : List Stmt} {cls : Str} {attrs olds : List (Str × PyVal)} (hCanonical : members.Canonical attrs)
    (hInstance : members.Instance olds)
    (hWrites : ∀ bs, serialize ⟨[], newInstance ctx fuel⟩ writer (.obj cls attrs) = some bs ↔
      members.NamedAlike ∧ members.serial attrs = some bs)
    (hReads : members.NamedAlike → Deserializes ctx fuel spec members reader) :
    RoundTripped ctx fuel writer reader members cls attrs olds ↔
      members.NamedAlike ∧ members.Written attrs ∧ members.Comparable attrs := by
  have hFormed := wellFormed_of_resolve fuel spec members h
  rw [RoundTripped, hWrites, (members.wholeIff attrs hCanonical).eq_some_iff, and_assoc]
  refine and_congr_right fun hNames => and_congr_right fun hWritten => ?_
  have hExact := (members.covers attrs hCanonical hWritten).exact
  obtain ⟨f, hSelf, hStop, hRun⟩ := (hReads hNames).reads _ cls olds hInstance _ _ hExact
  rw [run_postDeserialize_canonical _ h hSlots hCanonical hSelf] at hRun
  have hResult : deserialize ⟨members.encoding attrs, newInstance ctx fuel⟩ reader (.obj cls olds) =
      .ok (.obj cls (members.readBack attrs)) := by
    rw [deserialize, hRun]
    show (raising .other (f.valueOf .self)).mapError _ = _
    rw [hSelf]
    rfl
  have hEqual : PyVal.eqv false (.obj cls attrs) (.obj cls (members.readBack attrs)) = true ↔ members.Comparable attrs := by
    rw [PyVal.eqv, beq_self_eq_true, Bool.true_and]
    exact members.eqvAttrs_readBack hSlots hFormed attrs hCanonical
  rw [← hEqual]
  constructor
  · rintro ⟨_, m, _, _, hRead, hSame⟩
    rw [hResult] at hRead
    cases hRead
    exact hSame
  · exact fun hSame => ⟨f, _, hRun, hStop, hResult, hSame⟩

end

/-! ## Samples -/

def flagsMembers : Members := .cons (str "data") (.array none (.simple .bool)) .nil

def flagsAttrs (flags : List Bool) : List (Str × PyVal) := [(str "data", .list (flags.map .bool))]

end XcRos.Genpy
