import XcRos.Genpy.Serialize

/-! # Where the bytes are the encoding

Of a canonical value the emitted serializer writes the encoding, or raises, or writes less. Which of these
it does depends on the lengths and the text in the value.
-/

namespace XcRos.Genpy

open XcRos.Foundation XcRos.Msg

/-- The whole, just if the condition holds; else nothing, or less than the whole. -/
def WholeIff (result : Option Bytes) (whole : Bytes) (ok : Prop) : Prop :=
  (ok ∧ result = some whole) ∨ (¬ ok ∧ ∀ bs, result = some bs → bs.length < whole.length)

namespace WholeIff

variable {result rest : Option Bytes} {whole more : Bytes} {ok okRest : Prop}

theorem of_eq (h : result = some whole) : WholeIff result whole True := .inl ⟨trivial, h⟩

theorem congr (h : WholeIff result whole ok) (hIff : ok ↔ okRest) : WholeIff result whole okRest := by
  rw [WholeIff, hIff] at h
  exact h

theorem length_le (h : WholeIff result whole ok) {bs : Bytes} (hResult : result = some bs) : bs.length ≤ whole.length := by
  rcases h with ⟨_, hWhole⟩ | ⟨_, hLess⟩
  · rw [Option.some.inj (hResult.symm.trans hWhole)]
  · exact (hLess bs hResult).le

theorem eq_some_iff (h : WholeIff result whole ok) : result = some whole ↔ ok := by
  rcases h with ⟨hOk, hWhole⟩ | ⟨hNot, hLess⟩
  · exact iff_of_true hWhole hOk
  · exact iff_of_false (fun hWhole => Nat.lt_irrefl _ (hLess whole hWhole)) hNot

theorem append (h : WholeIff result whole ok) (hRest : WholeIff rest more okRest) :
    WholeIff (result.bind fun bs => rest.map (bs ++ ·)) (whole ++ more) (ok ∧ okRest) := by
  by_cases hBoth : ok ∧ okRest
  · refine .inl ⟨hBoth, ?_⟩
    rw [h.eq_some_iff.mpr hBoth.1, hRest.eq_some_iff.mpr hBoth.2]
    rfl
  · refine .inr ⟨hBoth, fun bs hResult => ?_⟩
    obtain ⟨front, hFront, hMap⟩ := Option.bind_eq_some_iff.mp hResult
    obtain ⟨tail, hTail, rfl⟩ := Option.map_eq_some_iff.mp hMap
    have hFrontLe := h.length_le hFront
    have hTailLe := hRest.length_le hTail
    rw [List.length_append, List.length_append]
    rcases h with ⟨hOk, _⟩ | ⟨_, hLess⟩
    · rcases hRest with ⟨hOkRest, _⟩ | ⟨_, hLessRest⟩
      · exact absurd ⟨hOk, hOkRest⟩ hBoth
      · have := hLessRest tail hTail
        omega
    · have := hLess front hFront
      omega

theorem before (h : WholeIff result whole ok) (bs : Bytes) : WholeIff (result.map (· ++ bs)) (whole ++ bs) ok := by
  have hBoth := (h.append (@of_eq (some bs) bs rfl)).congr (and_iff_left trivial)
  cases result <;> exact hBoth

theorem each {enc : PyVal → Option Bytes} {encoding : PyVal → Bytes} {okEach : PyVal → Prop} {vs : List PyVal}
    (h : ∀ v ∈ vs, WholeIff (enc v) (encoding v) (okEach v)) :
    WholeIff (encodeEach enc vs) (vs.flatMap encoding) (∀ v ∈ vs, okEach v) := by
  induction vs with
  | nil => exact (of_eq rfl).congr (by simp)
  | cons v vs ih =>
    have hTail := ih fun w hw => h w (List.mem_cons_of_mem v hw)
    rw [List.flatMap_cons, encodeEach]
    exact ((h v List.mem_cons_self).append hTail).congr (by simp)

end WholeIff

/-! ## Parts -/

theorem packLength_eq (n : Nat) : packLength n = if n < 4294967296 then some (le 4 n) else none := by
  have hIndex : Code.index (.int (n : Int)) = some (n : Int) := rfl
  have hFits : Code.Fits false 4 (n : Int) ↔ n < 4294967296 := by
    show (0 ≤ (n : Int) ∧ (n : Int) < 256 ^ 4) ↔ _
    omega
  rw [packLength, Code.pack, hIndex, Option.bind_some]
  by_cases hShort : n < 4294967296
  · have hMod : ((n : Int) % 256 ^ 4).toNat = n := by omega
    rw [if_pos hShort, if_pos (hFits.mpr hShort), hMod]
  · rw [if_neg hShort, if_neg (mt hFits.mp hShort)]

theorem wholeIff_length (n : Nat) : WholeIff (packLength n) (lengthFront none n) (ShortLength none n) := by
  have hIff : ShortLength none n ↔ n < 4294967296 := ⟨fun h => h rfl, fun h _ => h⟩
  rw [packLength_eq, WholeIff, hIff]
  split
  · rename_i h
    exact .inl ⟨h, rfl⟩
  · rename_i h
    exact .inr ⟨h, by rintro _ ⟨⟩⟩

theorem plainLength_some (n : Nat) : PlainLength (some n) ↔ reducedCount n = n := by
  rw [reducedCount_eq_iff]
  constructor
  · exact fun h => h n rfl
  · rintro h _ ⟨⟩
    exact h

theorem wholeIff_cut {n : Nat} {bs : Bytes} (hLength : bs.length = n) :
    WholeIff (some (cut (reducedCount n) bs)) bs (PlainLength (some n)) := by
  rw [plainLength_some]
  by_cases hPlain : reducedCount n = n
  · refine .inl ⟨hPlain, ?_⟩
    rw [hPlain, ← hLength, cut_length]
  · refine .inr ⟨hPlain, ?_⟩
    rintro _ ⟨⟩
    have hLe := reducedCount_le n
    rw [cut, List.length_append, List.length_take, List.length_replicate]
    omega

theorem Simple.pack_canonical {s : Simple} {v : PyVal} (h : s.Canonical v) : ∃ bs, s.code.pack v = some bs := by
  have hInt : ∀ signed width, (∃ n, v = .int n ∧ Code.Fits signed width n) → ∃ bs, (Code.int signed width).pack v = some bs := by
    rintro signed width ⟨n, rfl, hFits⟩
    exact ⟨_, if_pos hFits⟩
  cases s with
  | bool =>
    obtain ⟨b, rfl⟩ := h
    cases b <;> exact ⟨_, rfl⟩
  | float32 =>
    obtain ⟨bits, rfl⟩ := h
    exact ⟨_, rfl⟩
  | float64 =>
    obtain ⟨bits, rfl⟩ := h
    exact ⟨_, rfl⟩
  | int8 | uint8 | int16 | uint16 | int32 | uint32 | int64 | uint64 | char | byte => exact hInt _ _ h

theorem wholeIff_string (text : List CodePoint) :
    WholeIff (Ty.string.serial (.str text)) (Ty.string.encoding (.str text)) (Ty.string.Written (.str text)) := by
  have hEncoding : Ty.string.encoding (.str text) =
      lengthFront none ((encodeUtf8 text).getD []).length ++ (encodeUtf8 text).getD [] := rfl
  have hSerial : Ty.string.serial (.str text) = (encodeUtf8 text).bind fun bs => (packLength bs.length).map (· ++ bs) := rfl
  rw [hEncoding, hSerial, Ty.Written]
  cases hText : encodeUtf8 text with
  | none =>
    refine .inr ⟨?_, by rintro _ ⟨⟩⟩
    rintro ⟨text', bs, hEq, hSome, _⟩
    cases hEq
    rw [hText] at hSome
    cases hSome
  | some bs =>
    rw [Option.getD_some, Option.bind_some]
    refine ((wholeIff_length bs.length).before bs).congr ?_
    constructor
    · exact fun hShort => ⟨text, bs, rfl, hText, hShort rfl⟩
    · rintro ⟨text', bs', hEq, hSome, hLength⟩ _
      cases hEq
      obtain rfl := Option.some.inj (hText.symm.trans hSome)
      exact hLength

theorem wholeIff_bytes {length : Option Nat} {bs : Bytes} (hLength : HasLength length bs) (t : Ty) :
    WholeIff ((Ty.array length t).serial (.bytes bs)) ((Ty.array length t).encoding (.bytes bs))
      ((Ty.array length t).Written (.bytes bs)) := by
  rw [Ty.encoding, Ty.Written]
  cases length with
  | none =>
    rw [Ty.serial]
    refine ((wholeIff_length bs.length).before bs).congr ?_
    exact (and_iff_left (by rintro _ ⟨⟩)).symm
  | some n =>
    rw [Ty.serial]
    refine (wholeIff_cut (hLength n rfl)).congr ?_
    exact (and_iff_right (by rintro ⟨⟩)).symm

theorem wholeIff_list {length : Option Nat} {vs : List PyVal} (hLength : HasLength length vs) {t : Ty}
    (hEach : ∀ v ∈ vs, WholeIff (t.serial v) (t.encoding v) (t.Written v)) :
    WholeIff ((Ty.array length t).serial (.list vs)) ((Ty.array length t).encoding (.list vs))
      ((Ty.array length t).Written (.list vs)) := by
  have hAll := WholeIff.each hEach
  rw [Ty.encoding, Ty.Written]
  cases length with
  | none =>
    rw [Ty.serial]
    refine ((wholeIff_length vs.length).append hAll).congr ?_
    exact and_congr_right fun _ => (and_iff_right fun _ _ h => by cases h).symm
  | some n =>
    rw [Ty.serial, hLength n rfl]
    have hShort : ShortLength (some n) n := by rintro ⟨⟩
    by_cases hReduced : t.isSimple ∧ n ≠ reducedCount n
    · rw [if_pos hReduced]
      refine .inr ⟨?_, by rintro _ ⟨⟩⟩
      rintro ⟨_, hPlain, _⟩
      exact hReduced.2 ((plainLength_some n).mp (hPlain hReduced.1)).symm
    · rw [if_neg hReduced]
      refine hAll.congr (Iff.symm ?_)
      rw [and_iff_right hShort, and_iff_right]
      intro hSimple
      by_contra hPlain
      exact hReduced ⟨hSimple, fun hEq => hPlain ((plainLength_some n).mpr hEq.symm)⟩

mutual

theorem Ty.wholeIff : (t : Ty) → (v : PyVal) → t.Canonical v → WholeIff (t.serial v) (t.encoding v) (t.Written v)
  | .simple s, v, h => by
    obtain ⟨bs, hPack⟩ := Simple.pack_canonical h
    rw [Ty.serial, Ty.encoding, Ty.Written, hPack]
    exact WholeIff.of_eq rfl
  | .string, v, h => by
    obtain ⟨text, rfl⟩ := h
    exact wholeIff_string text
  | .array length t, v, h => by
    rw [Ty.Canonical] at h
    split at h
    · obtain ⟨bs, rfl, hLength⟩ := h
      exact wholeIff_bytes hLength t
    · obtain ⟨vs, rfl, hLength, hEach⟩ := h
      exact wholeIff_list hLength fun w hw => t.wholeIff w (hEach w hw)
  | .message cls members, v, h => by
    obtain ⟨attrs, rfl, hMembers, _⟩ := h
    rw [Ty.serial, Ty.encoding, Ty.Written]
    exact members.wholeIff attrs hMembers

theorem Members.wholeIff : (members : Members) → (attrs : List (Str × PyVal)) → members.Canonical attrs →
    WholeIff (members.serial attrs) (members.encoding attrs) (members.Written attrs)
  | .nil, attrs, h => by
    obtain rfl := h
    exact WholeIff.of_eq rfl
  | .cons name t rest, attrs, h => by
    obtain ⟨v, more, rfl, hHead, hRest⟩ := h
    exact (t.wholeIff v hHead).append (rest.wholeIff more hRest)

end

end XcRos.Genpy
