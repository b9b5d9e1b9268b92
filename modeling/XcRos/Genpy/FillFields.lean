import XcRos.Genpy.FillArgs

/-! # Filling slot by slot

Items with the slots of a message as their keys fill each slot by itself, and an item with another key is refused.
-/

namespace XcRos.Genpy

open XcRos.Foundation XcRos.Msg

theorem ok_of_toOption {ε α : Type} {x : Except ε α} {a : α} (h : x.toOption = some a) : x = .ok a := by
  cases x with
  | error e => cases h
  | ok b =>
    cases h
    rfl

/-! ## One slot -/

section

variable {missing : FillFault} {f : Key} {g : PyObj → Except FillFault PyObj}

theorem updateSlot_self (slot : Str) (v : PyObj) (attrs : List (Str × PyObj)) :
    updateSlot missing (.str slot) g ((slot, v) :: attrs) = (g v).map fun w => (slot, w) :: attrs := if_pos rfl

theorem updateSlot_behind {slot : Str} {done : List (Str × PyObj)} (hFresh : slot ∉ done.map Prod.fst) (v : PyObj)
    (attrs : List (Str × PyObj)) :
    updateSlot missing (.str slot) g (done ++ (slot, v) :: attrs) = (g v).map fun w => done ++ (slot, w) :: attrs := by
  induction done with
  | nil => exact updateSlot_self slot v attrs
  | cons entry done ih =>
    obtain ⟨hHead, hTail⟩ := not_or.mp fun hMem => hFresh (List.mem_cons.mpr hMem)
    have hNe : ¬ Key.str slot = .str entry.1 := fun hEq => hHead (Key.str.inj hEq)
    rw [List.cons_append, updateSlot, if_neg hNe, ih hTail]
    cases g v <;> rfl

theorem updateSlot_missing {attrs : List (Str × PyObj)} (h : ∀ slot ∈ attrs.map Prod.fst, f ≠ .str slot) :
    updateSlot missing f g attrs = .error missing := by
  induction attrs with
  | nil => rfl
  | cons attr attrs ih =>
    obtain ⟨hHead, hTail⟩ := List.forall_mem_cons.mp h
    rw [updateSlot, if_neg hHead, ih hTail]
    rfl

theorem updateSlot_keys {attrs attrs' : List (Str × PyObj)} (h : updateSlot missing f g attrs = .ok attrs') :
    attrs'.map Prod.fst = attrs.map Prod.fst := by
  induction attrs generalizing attrs' with
  | nil => cases h
  | cons attr attrs ih =>
    obtain ⟨slot, v⟩ := attr
    rw [updateSlot] at h
    split at h
    · cases hValue : g v with
      | error fault =>
        rw [hValue] at h
        cases h
      | ok w =>
        rw [hValue] at h
        cases h
        rfl
    · cases hRest : updateSlot missing f g attrs with
      | error fault =>
        rw [hRest] at h
        cases h
      | ok rest =>
        rw [hRest] at h
        cases h
        exact congrArg (slot :: ·) (ih hRest)

end

/-! ## All slots -/

section

variable (env : Classes) (keys : List (List CodePoint × PyObj)) (pre cls : Str)

def slotResult (slots : List Str) (name : Str) (old w : PyObj) : Except FillFault PyObj :=
  newValue env keys (pre ++ name) (slotType env cls slots (.str name)) (fillArgs env keys (pre ++ name ++ ['.']) w)
    (fillElements env keys pre w) (orEmpty w) old

def filledSlot (slots : List Str) (f : Str × PyObj × PyObj) : Option (Str × PyObj) :=
  (slotResult env keys pre cls slots f.1 f.2.1 f.2.2).toOption.map fun v => (f.1, v)

theorem fillItems_slots (fs : List (Str × PyObj × PyObj)) (done : List (Str × PyObj)) (slots : List Str)
    (hSlots : slots = done.map Prod.fst ++ fs.map Prod.fst) (hNodup : slots.Nodup) :
    (fillItems env keys pre cls (fs.map fun f => (Key.str f.1, f.2.2)) (done ++ fs.map fun f => (f.1, f.2.1))).toOption =
      (fs.mapM (filledSlot env keys pre cls slots)).map (done ++ ·) := by
  induction fs generalizing done with
  | nil =>
    rw [List.map_nil, List.map_nil, fillItems]
    rfl
  | cons f fs ih =>
    obtain ⟨name, old, w⟩ := f
    have hFresh : name ∉ done.map Prod.fst := by
      rw [hSlots, List.nodup_append] at hNodup
      exact fun hMem => hNodup.2.2 name hMem name List.mem_cons_self rfl
    have hKeys : (done ++ (name, old) :: fs.map fun f => (f.1, f.2.1)).map Prod.fst = slots := by
      rw [hSlots, List.map_append, List.map_cons, List.map_map]
      rfl
    have hVal : fillVal env keys pre cls (.str name) (orEmpty w) (fillArgs env keys (pre ++ (Key.str name).text ++ ['.']) w)
        (fillElements env keys pre w) (done ++ (name, old) :: fs.map fun f => (f.1, f.2.1)) =
        (slotResult env keys pre cls slots name old w).map fun v => done ++ (name, v) :: fs.map fun f => (f.1, f.2.1) := by
      rw [fillVal, updateSlot_behind hFresh, hKeys]
      rfl
    rw [List.map_cons, List.map_cons, fillItems, hVal, List.mapM_cons, filledSlot]
    cases hResult : slotResult env keys pre cls slots name old w with
    | error fault => rfl
    | ok v =>
      have hRest := ih (done ++ [(name, v)]) (by rw [hSlots, List.map_append, List.append_assoc]; rfl)
      rw [List.append_assoc] at hRest
      refine hRest.trans ?_
      cases fs.mapM (filledSlot env keys pre cls slots) with
      | none => rfl
      | some news => exact congrArg some (List.append_assoc done [(name, v)] news)

theorem fillItems_foreign {items : List (Key × PyObj)} {k : Key} (hItem : k ∈ items.map Prod.fst)
    {attrs : List (Str × PyObj)} (hForeign : ∀ slot ∈ attrs.map Prod.fst, k ≠ .str slot) :
    (fillItems env keys pre cls items attrs).toOption = none := by
  induction items generalizing attrs with
  | nil => exact absurd hItem List.not_mem_nil
  | cons item items ih =>
    obtain ⟨f, v⟩ := item
    rw [fillItems]
    cases hVal : fillVal env keys pre cls f (orEmpty v) (fillArgs env keys (pre ++ f.text ++ ['.']) v)
        (fillElements env keys pre v) attrs with
    | error fault => rfl
    | ok attrs' =>
      obtain rfl | hItem := List.mem_cons.mp hItem
      · rw [fillVal, updateSlot_missing hForeign] at hVal
        cases hVal
      · refine ih hItem ?_
        rw [updateSlot_keys hVal]
        exact hForeign

/-! ## Elements -/

def elementResult (env : Classes) (keys : List (List CodePoint × PyObj)) (pre : Str) (inner el : PyObj) :
    Except FillFault PyObj :=
  match asNsec el inner with
  | some (cls, n) => env.fromNsec cls n
  | none => fillArgs env keys pre el inner

theorem fillEach_elements (inner : PyObj) (els : List PyObj) :
    (fillEach env keys pre els inner).toOption = els.mapM fun el => (elementResult env keys pre inner el).toOption := by
  induction els with
  | nil =>
    rw [fillEach]
    rfl
  | cons el els ih =>
    have hFirst : fillEach env keys pre (el :: els) inner =
        (elementResult env keys pre inner el).bind fun filled => (fillEach env keys pre els inner).map (filled :: ·) := by
      rw [fillEach]
      rfl
    rw [hFirst, List.mapM_cons, ← ih]
    cases elementResult env keys pre inner el with
    | error fault => rfl
    | ok filled => cases fillEach env keys pre els inner <;> rfl

end

end XcRos.Genpy
