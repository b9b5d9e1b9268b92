import XcRos.Rpc.ValueBounds
import XcRos.Rpc.ValueRoundTrip

/-! # Reading a value in place

`fromXml` as the source runs it: on the value and the offset that it changes, with `none` for a run that is not over
after so many calls and turns of its loops. Every run is over within the length of the text, and leaves what `fromXml` of
the model says.
-/

namespace XcRos.Rpc

open XcRos.Foundation

def Value.valid : Value → Bool
  | .invalid => false
  | _ => true

theorem Value.valid_of_ne {v : Value} (h : v ≠ .invalid) : v.valid = true := by
  cases v with
  | invalid => exact absurd rfl h
  | _ => rfl

/-- An `XmlRpcValue` that is read, and the offset that is passed along. -/
structure Reader where
  value : Value
  offset : Nat

namespace Reader

/-- What the reader of a plain type returns; it has changed nothing where that is false. -/
def take (s : Reader) : Option (Value × Nat) → Bool × Reader
  | none => (false, s)
  | some (v, offset) => (true, ⟨v, offset⟩)

/-- `arrayFromXml` around its loop. -/
def arrayFromXml (loop : Reader → Option (List Value × Nat)) (xml : Bytes) (s : Reader) : Option (Bool × Reader) :=
  match nextTagIs dataTag xml s.offset with
  | none => some (false, s)
  | some offset => (loop ⟨.invalid, offset⟩).map fun r => (true, ⟨.array r.1, skipTag dataEtag xml r.2⟩)

/-- `structFromXml` around its loop, which gives no members where a value is invalid. -/
def structFromXml (loop : Nat → Option (Option (List (Bytes × Value)) × Nat)) (s : Reader) : Option (Bool × Reader) :=
  (loop s.offset).map fun r =>
    match r.1 with
    | none => (false, ⟨.invalid, r.2⟩)
    | some members => (true, ⟨.struct members, r.2⟩)

/-- The end of `fromXml`: the offset goes behind `</value>`, or back to where it was. -/
def close (xml : Bytes) (savedOffset : Nat) (r : Bool × Reader) : Bool × Reader :=
  if r.1 then (true, { r.2 with offset := (findTag valueEtag xml r.2.offset).getD r.2.offset })
  else (false, { r.2 with offset := savedOffset })

mutual

/-- `XmlRpcValue::fromXml` -/
def fromXml [DoubleText] (xml : Bytes) : Nat → Reader → Option (Bool × Reader)
  | 0, _ => none
  | fuel + 1, s =>
    let savedOffset := s.offset
    let s : Reader := { s with value := .invalid }
    match nextTagIs valueTag xml s.offset with
    | none => some (false, s)
    | some afterValueOffset =>
      let next := getNextTag xml afterValueOffset
      let typeTag := next.1
      let s : Reader := { s with offset := next.2 }
      let result :=
        if typeTag = booleanTag then some (s.take (boolFromXml xml s.offset))
        else if typeTag = i4Tag ∨ typeTag = intTag then some (s.take (intFromXml xml s.offset))
        else if typeTag = doubleTag then some (s.take (doubleFromXml xml s.offset))
        else if typeTag = [] ∨ typeTag = stringTag then some (s.take (stringFromXml xml s.offset))
        else if typeTag = dateTimeTag then some (s.take (timeFromXml xml s.offset))
        else if typeTag = base64Tag then some (s.take (binaryFromXml xml s.offset))
        else if typeTag = arrayTag then s.arrayFromXml (elementsFromXml xml fuel []) xml
        else if typeTag = structTag then s.structFromXml (membersFromXml xml fuel [])
        else if typeTag = valueEtag then
          let s : Reader := { s with offset := afterValueOffset }
          some (s.take (stringFromXml xml s.offset))
        else some (false, s)
      result.map (close xml savedOffset)

/-- The loop of `arrayFromXml`: `while (v.fromXml(valueXml, offset))` -/
def elementsFromXml [DoubleText] (xml : Bytes) : Nat → List Value → Reader → Option (List Value × Nat)
  | 0, _, _ => none
  | fuel + 1, elements, v =>
    match fromXml xml fuel v with
    | none => none
    | some (false, v) => some (elements, v.offset)
    | some (true, v) => elementsFromXml xml fuel (elements ++ [v.value]) v

/-- The loop of `structFromXml`: `while (nextTagIs(MEMBER_TAG, valueXml, offset))` -/
def membersFromXml [DoubleText] (xml : Bytes) :
    Nat → List (Bytes × Value) → Nat → Option (Option (List (Bytes × Value)) × Nat)
  | 0, _, _ => none
  | fuel + 1, members, offset =>
    match nextTagIs memberTag xml offset with
    | none => some (some members, offset)
    | some offset =>
      let name := parseTag nameTag xml offset
      match fromXml xml fuel ⟨.invalid, name.2⟩ with
      | none => none
      | some (read, r) =>
        -- the constructor from XML
        let val := if read then r.value else .invalid
        if val.valid then membersFromXml xml fuel (insertAbsent name.1 val members) (skipTag memberEtag xml r.offset)
        else some (none, r.offset)

end

/-! ## What a run leaves -/

inductive Agrees : Bool × Reader → Option (Value × Nat) → Prop
  | failed (offset : Nat) : Agrees (false, ⟨.invalid, offset⟩) none
  | read (v : Value) (offset : Nat) : Agrees (true, ⟨v, offset⟩) (some (v, offset))

theorem agrees_take (offset : Nat) (result : Option (Value × Nat)) : Agrees (take ⟨.invalid, offset⟩ result) result := by
  cases result with
  | none => exact .failed offset
  | some read => exact .read read.1 read.2

def Ends (run : Option (Bool × Reader)) (result : Option (Value × Nat)) : Prop := ∃ r, run = some r ∧ Agrees r result

theorem ends_take (offset : Nat) (result : Option (Value × Nat)) :
    Ends (some (take ⟨.invalid, offset⟩ result)) result := ⟨_, rfl, agrees_take offset result⟩

theorem Ends.ite {c : Prop} [Decidable c] {run other : Option (Bool × Reader)} {result result' : Option (Value × Nat)}
    (h : Ends run result) (h' : Ends other result') : Ends (if c then run else other) (if c then result else result') := by
  split
  · exact h
  · exact h'

theorem Ends.close {run : Option (Bool × Reader)} {result : Option (Value × Nat)} (h : Ends run result) (xml : Bytes)
    (savedOffset : Nat) : run.map (Reader.close xml savedOffset) = some (take ⟨.invalid, savedOffset⟩
      (match (motive := Option (Value × Nat) → Option (Value × Nat)) result with
        | none => none
        | some (v, offset) => some (v, (findTag valueEtag xml offset).getD offset))) := by
  obtain ⟨r, rfl, hAgrees⟩ := h
  cases hAgrees with
  | failed offset => rfl
  | read v offset => rfl

/-- With `fuel` turns a run is over, and it leaves what the readers of the model give for as many. -/
structure Runs [DoubleText] (fuel : Nat) (xml : Bytes) : Prop where
  value : ∀ s more, xml.length - s.offset + 1 ≤ fuel → xml.length - s.offset + 1 ≤ more →
    fromXml xml fuel s = some (take ⟨.invalid, s.offset⟩ (fromXmlFuel more xml s.offset))
  elements : ∀ vs s more, s.offset ≤ xml.length → xml.length - s.offset + 2 ≤ fuel → xml.length - s.offset + 2 ≤ more →
    elementsFromXml xml fuel vs s =
      some (vs ++ (Rpc.elementsFromXml more xml s.offset).1, (Rpc.elementsFromXml more xml s.offset).2)
  members : ∀ ms offset more, offset ≤ xml.length → xml.length - offset + 2 ≤ fuel → xml.length - offset + 2 ≤ more →
    ∃ stop, membersFromXml xml fuel ms offset = some ((Rpc.membersFromXml more ms xml offset).map Prod.fst, stop) ∧
      ∀ all next, Rpc.membersFromXml more ms xml offset = some (all, next) → next = stop

section

variable [DoubleText] {fuel : Nat} {xml : Bytes}

theorem runs_zero : Runs 0 xml where
  value _ _ hFuel _ := absurd hFuel (Nat.not_succ_le_zero _)
  elements _ _ _ _ hFuel _ := absurd hFuel (Nat.not_succ_le_zero _)
  members _ _ _ _ hFuel _ := absurd hFuel (Nat.not_succ_le_zero _)

theorem Runs.value_succ (h : Runs fuel xml) (s : Reader) (more : Nat) (hFuel : xml.length - s.offset ≤ fuel)
    (hMore : xml.length - s.offset ≤ more) :
    fromXml xml (fuel + 1) s = some (take ⟨.invalid, s.offset⟩ (fromXmlFuel (more + 1) xml s.offset)) := by
  rw [fromXml, fromXmlFuel]
  dsimp only
  cases hValue : nextTagIs valueTag xml s.offset with
  | none => rfl
  | some after =>
    dsimp only
    obtain ⟨hOpen, hAfter⟩ := nextTagIs_bounds hValue
    obtain ⟨hTag, hInner⟩ := getNextTag_bounds hAfter
    have hLong : 7 ≤ valueTag.length := by decide
    refine Ends.close ?_ xml s.offset
    refine .ite (ends_take _ _) (.ite (ends_take _ _) (.ite (ends_take _ _) (.ite (ends_take _ _) (.ite (ends_take _ _)
      (.ite (ends_take _ _) (.ite ?_ (.ite ?_ (.ite (ends_take _ _) (ends_take _ none)))))))))
    · rw [arrayFromXml]
      dsimp only
      cases hData : nextTagIs dataTag xml (getNextTag xml after).2 with
      | none => exact ⟨_, rfl, .failed _⟩
      | some data =>
        obtain ⟨hDataOpen, hDataLe⟩ := nextTagIs_bounds hData
        have hRun := h.elements [] ⟨.invalid, data⟩ more hDataLe (by simp only; omega) (by simp only; omega)
        dsimp only
        rw [hRun]
        exact ⟨_, rfl, .read _ _⟩
    · obtain ⟨stop, hRun, hStop⟩ := h.members [] (getNextTag xml after).2 more hInner (by omega) (by omega)
      rw [structFromXml]
      dsimp only
      refine ⟨_, by rw [hRun, Option.map_some], ?_⟩
      cases hMembers : Rpc.membersFromXml more [] xml (getNextTag xml after).2 with
      | none => exact .failed stop
      | some read =>
        rw [← hStop read.1 read.2 hMembers]
        exact .read _ _

theorem Runs.elements_succ (hStrtod : DoubleText.Bounded) (h : Runs fuel xml) (vs : List Value) (s : Reader) (more : Nat)
    (hOffset : s.offset ≤ xml.length) (hFuel : xml.length - s.offset + 1 ≤ fuel)
    (hMore : xml.length - s.offset + 1 ≤ more) :
    elementsFromXml xml (fuel + 1) vs s =
      some (vs ++ (Rpc.elementsFromXml (more + 1) xml s.offset).1, (Rpc.elementsFromXml (more + 1) xml s.offset).2) := by
  rw [elementsFromXml, Rpc.elementsFromXml, h.value s more hFuel hMore]
  cases hHead : fromXmlFuel more xml s.offset with
  | none =>
    dsimp only [take]
    rw [List.append_nil]
  | some read =>
    obtain ⟨v, next⟩ := read
    obtain ⟨_, hLow, hHigh⟩ := (readersStop hStrtod more xml).value s.offset v next hHead
    have hLong : 1 ≤ valueTag.length := by decide
    have hRest := h.elements (vs ++ [v]) ⟨v, next⟩ more hHigh (by simp only; omega) (by simp only; omega)
    dsimp only [take] at hRest ⊢
    rw [hRest, List.append_assoc, List.singleton_append]

theorem Runs.members_succ (hStrtod : DoubleText.Bounded) (h : Runs fuel xml) (ms : List (Bytes × Value)) (offset more : Nat)
    (hOffset : offset ≤ xml.length) (hFuel : xml.length - offset + 1 ≤ fuel) (hMore : xml.length - offset + 1 ≤ more) :
    ∃ stop, membersFromXml xml (fuel + 1) ms offset =
        some ((Rpc.membersFromXml (more + 1) ms xml offset).map Prod.fst, stop) ∧
      ∀ all next, Rpc.membersFromXml (more + 1) ms xml offset = some (all, next) → next = stop := by
  rw [membersFromXml, Rpc.membersFromXml]
  cases hMember : nextTagIs memberTag xml offset with
  | none =>
    refine ⟨offset, rfl, ?_⟩
    intro all next hSame
    cases hSame
    rfl
  | some inner =>
    obtain ⟨hOpen, hInner⟩ := nextTagIs_bounds hMember
    obtain ⟨hName, hNameLe⟩ := parseTag_bounds nameTag hInner
    have hLong : 1 ≤ memberTag.length := by decide
    have hRun := h.value ⟨.invalid, (parseTag nameTag xml inner).2⟩ more (by simp only; omega) (by simp only; omega)
    dsimp only at hRun ⊢
    rw [hRun]
    cases hValue : fromXmlFuel more xml (parseTag nameTag xml inner).2 with
    | none =>
      refine ⟨(parseTag nameTag xml inner).2, rfl, ?_⟩
      intro all next hSame
      cases hSame
    | some read =>
      obtain ⟨v, next⟩ := read
      obtain ⟨hValid, hLow, hHigh⟩ := (readersStop hStrtod more xml).value _ v next hValue
      obtain ⟨hSkip, hSkipLe⟩ := skipTag_bounds memberEtag hHigh
      dsimp only [take]
      rw [if_pos rfl, Value.valid_of_ne hValid, if_pos rfl]
      exact h.members _ _ more hSkipLe (by omega) (by omega)

theorem runs (hStrtod : DoubleText.Bounded) (fuel : Nat) (xml : Bytes) : Runs fuel xml := by
  induction fuel with
  | zero => exact runs_zero
  | succ fuel ih =>
    refine ⟨fun s more hFuel hMore => ?_, fun vs s more hOffset hFuel hMore => ?_,
      fun ms offset more hOffset hFuel hMore => ?_⟩
    · obtain ⟨more, rfl⟩ := Nat.exists_eq_succ_of_ne_zero (Nat.ne_zero_of_lt hMore)
      exact ih.value_succ s more (by omega) (by omega)
    · obtain ⟨more, rfl⟩ := Nat.exists_eq_succ_of_ne_zero (Nat.ne_zero_of_lt hMore)
      exact ih.elements_succ hStrtod vs s more hOffset (by omega) (by omega)
    · obtain ⟨more, rfl⟩ := Nat.exists_eq_succ_of_ne_zero (Nat.ne_zero_of_lt hMore)
      exact ih.members_succ hStrtod ms offset more hOffset (by omega) (by omega)

theorem fromXml_eq (hStrtod : DoubleText.Bounded) {turns : Nat} (hTurns : xml.length < turns) (s : Reader) :
    fromXml xml turns s = some (take ⟨.invalid, s.offset⟩ (Rpc.fromXml xml s.offset)) :=
  (runs hStrtod turns xml).value s (xml.length + 1) (by omega) (by omega)

/-- A run is over; it has moved the offset forward and not past the end, or it leaves the offset where it was and the
value invalid. -/
theorem fromXml_consumes_or_leaves (hStrtod : DoubleText.Bounded) (xml : Bytes) (s : Reader) :
    ∃ result s', (∀ turns, xml.length < turns → fromXml xml turns s = some (result, s')) ∧
      (result = true → s.offset < s'.offset ∧ s'.offset ≤ xml.length ∧ s'.value.valid = true) ∧
      (result = false → s'.offset = s.offset ∧ s'.value = .invalid) := by
  cases hRead : Rpc.fromXml xml s.offset with
  | none =>
    refine ⟨false, ⟨.invalid, s.offset⟩, ?_, ?_, ?_⟩
    · intro turns hTurns
      rw [fromXml_eq hStrtod hTurns, hRead]
      rfl
    · intro hTrue
      cases hTrue
    · exact fun _ => ⟨rfl, rfl⟩
  | some read =>
    obtain ⟨v, next⟩ := read
    obtain ⟨hValid, hLow, hHigh⟩ := (readersStop hStrtod (xml.length + 1) xml).value s.offset v next hRead
    have hLong : 1 ≤ valueTag.length := by decide
    refine ⟨true, ⟨v, next⟩, ?_, ?_, ?_⟩
    · intro turns hTurns
      rw [fromXml_eq hStrtod hTurns, hRead]
      rfl
    · exact fun _ => ⟨by simp only; omega, hHigh, Value.valid_of_ne hValid⟩
    · intro hFalse
      cases hFalse

end

theorem fromXml_consumes_or_leaves_unclosed :
    ∃ result s', (∀ turns, (bytes "<value><array><data><value>").length < turns →
        @fromXml noDoubles (bytes "<value><array><data><value>") turns ⟨.boolean true, 0⟩ = some (result, s')) ∧
      (result = true → 0 < s'.offset ∧ s'.offset ≤ (bytes "<value><array><data><value>").length ∧ s'.value.valid = true) ∧
      (result = false → s'.offset = 0 ∧ s'.value = .invalid) :=
  @fromXml_consumes_or_leaves noDoubles (fun s => Nat.zero_le s.length) (bytes "<value><array><data><value>")
    ⟨.boolean true, 0⟩

end Reader

end XcRos.Rpc
