import Mathlib.Data.Set.Lattice
import Mathlib.Order.CompletePartialOrder
import Mathlib.Order.Interval.Set.Basic
import XcRos.Rpc.ValueEquality

/-! # Storage of values

An `XmlRpcValue` is a type and either a number or a pointer. `operator=` deletes what the left side owns and makes
copies of all that the right side owns, so that the two share nothing.
-/

namespace XcRos.Rpc

/-- `_type` with `_value`: a number, or where the object stands. -/
inductive Cell where
  | invalid
  | boolean (b : Bool)
  | int (i : Int32)
  | double (bits : UInt64)
  | string (p : Nat)
  | dateTime (p : Nat)
  | base64 (p : Nat)
  | array (p : Nat)
  | struct (p : Nat)
deriving DecidableEq, Repr

/-- What `new` makes: a vector has a cell for each element, and a map a cell for each name. -/
inductive Object where
  | string (s : Bytes)
  | time (t : Tm)
  | binary (data : Bytes)
  | array (cells : List Cell)
  | struct (names : List Bytes) (cells : List Cell)

/-- The objects that were made and not deleted; the next one is made at `next`. -/
structure Heap where
  objects : Nat → Option Object
  next : Nat

namespace Heap

def new (h : Heap) (o : Object) : Heap :=
  { objects := Function.update h.objects h.next (some o), next := h.next + 1 }

def delete (h : Heap) (p : Nat) : Heap := { h with objects := Function.update h.objects p none }

mutual

/-- The copy constructor. A step is `none` when it reads what is not there, or after so many calls. -/
def copy : Nat → Heap → Cell → Option (Cell × Heap)
  | 0, _, _ => none
  | _ + 1, h, .string p =>
    match h.objects p with
    | some (.string s) => some (.string h.next, h.new (.string s))
    | _ => none
  | _ + 1, h, .dateTime p =>
    match h.objects p with
    | some (.time t) => some (.dateTime h.next, h.new (.time t))
    | _ => none
  | _ + 1, h, .base64 p =>
    match h.objects p with
    | some (.binary data) => some (.base64 h.next, h.new (.binary data))
    | _ => none
  | fuel + 1, h, .array p =>
    match h.objects p with
    | some (.array cells) => (copyAll fuel h cells).map fun r => (.array r.2.next, r.2.new (.array r.1))
    | _ => none
  | fuel + 1, h, .struct p =>
    match h.objects p with
    | some (.struct names cells) => (copyAll fuel h cells).map fun r => (.struct r.2.next, r.2.new (.struct names r.1))
    | _ => none
  | _ + 1, h, plain => some (plain, h)

def copyAll : Nat → Heap → List Cell → Option (List Cell × Heap)
  | 0, _, _ => none
  | _ + 1, h, [] => some ([], h)
  | fuel + 1, h, c :: cs => (copy fuel h c).bind fun r => (copyAll fuel r.2 cs).map fun rest => (r.1 :: rest.1, rest.2)

end

mutual

/-- `invalidate` on a heap; `none` when it deletes what is not there. -/
def invalidate : Nat → Heap → Cell → Option Heap
  | 0, _, _ => none
  | _ + 1, h, .string p =>
    match h.objects p with
    | some (.string _) => some (h.delete p)
    | _ => none
  | _ + 1, h, .dateTime p =>
    match h.objects p with
    | some (.time _) => some (h.delete p)
    | _ => none
  | _ + 1, h, .base64 p =>
    match h.objects p with
    | some (.binary _) => some (h.delete p)
    | _ => none
  | fuel + 1, h, .array p =>
    match h.objects p with
    | some (.array cells) => (invalidateAll fuel h cells).map fun h => h.delete p
    | _ => none
  | fuel + 1, h, .struct p =>
    match h.objects p with
    | some (.struct _ cells) => (invalidateAll fuel h cells).map fun h => h.delete p
    | _ => none
  | _ + 1, h, _ => some h

def invalidateAll : Nat → Heap → List Cell → Option Heap
  | 0, _, _ => none
  | _ + 1, h, [] => some h
  | fuel + 1, h, c :: cs => (invalidate fuel h c).bind fun h => invalidateAll fuel h cs

end

/-- `operator=` where the two sides are not the same value: the cell that the left side gets. -/
def assign (fuel : Nat) (h : Heap) (this rhs : Cell) : Option (Cell × Heap) :=
  (invalidate fuel h this).bind fun h => copy fuel h rhs

end Heap

inductive HoldsAll (R : Value → Cell → Set Nat → Prop) : List Value → List Cell → Set Nat → Prop
  | nil (S : Set Nat) : HoldsAll R [] [] S
  | cons {v : Value} {c : Cell} {vs : List Value} {cs : List Cell} {A B S : Set Nat} (hHead : R v c A)
      (hTail : HoldsAll R vs cs B) (hDisjoint : Disjoint A B) (hHeadLe : A ⊆ S) (hTailLe : B ⊆ S) :
      HoldsAll R (v :: vs) (c :: cs) S

/-- A cell stands for a value, with objects that stand in a region and belong to it alone. -/
inductive Holds (h : Heap) : Value → Cell → Set Nat → Prop
  | invalid (S : Set Nat) : Holds h .invalid .invalid S
  | boolean (b : Bool) (S : Set Nat) : Holds h (.boolean b) (.boolean b) S
  | int (i : Int32) (S : Set Nat) : Holds h (.int i) (.int i) S
  | double (bits : UInt64) (S : Set Nat) : Holds h (.double bits) (.double bits) S
  | string {s : Bytes} {p : Nat} {S : Set Nat} (hObject : h.objects p = some (.string s)) (hMem : p ∈ S) :
      Holds h (.string s) (.string p) S
  | dateTime {t : Tm} {p : Nat} {S : Set Nat} (hObject : h.objects p = some (.time t)) (hMem : p ∈ S) :
      Holds h (.dateTime t) (.dateTime p) S
  | base64 {data : Bytes} {p : Nat} {S : Set Nat} (hObject : h.objects p = some (.binary data)) (hMem : p ∈ S) :
      Holds h (.base64 data) (.base64 p) S
  | array {vs : List Value} {cs : List Cell} {p : Nat} {S A : Set Nat} (hObject : h.objects p = some (.array cs))
      (hMem : p ∈ S) (hAll : HoldsAll (Holds h) vs cs A) (hSub : A ⊆ S) (hOwn : p ∉ A) : Holds h (.array vs) (.array p) S
  | struct {ms : List (Bytes × Value)} {cs : List Cell} {p : Nat} {S A : Set Nat}
      (hObject : h.objects p = some (.struct (ms.map Prod.fst) cs)) (hMem : p ∈ S)
      (hAll : HoldsAll (Holds h) (ms.map Prod.snd) cs A) (hSub : A ⊆ S) (hOwn : p ∉ A) : Holds h (.struct ms) (.struct p) S

/-! ## Regions -/

theorem HoldsAll.mono {R : Value → Cell → Set Nat → Prop} {vs : List Value} {cs : List Cell} {S S' : Set Nat}
    (h : HoldsAll R vs cs S) (hLe : S ⊆ S') : HoldsAll R vs cs S' := by
  cases h with
  | nil => exact .nil S'
  | cons hHead hTail hDisjoint hHeadLe hTailLe =>
    exact .cons hHead hTail hDisjoint (hHeadLe.trans hLe) (hTailLe.trans hLe)

theorem Holds.mono {h : Heap} {v : Value} {c : Cell} {S S' : Set Nat} (hHolds : Holds h v c S) (hLe : S ⊆ S') :
    Holds h v c S' := by
  cases hHolds with
  | invalid => exact .invalid S'
  | boolean b => exact .boolean b S'
  | int i => exact .int i S'
  | double bits => exact .double bits S'
  | string hObject hMem => exact .string hObject (hLe hMem)
  | dateTime hObject hMem => exact .dateTime hObject (hLe hMem)
  | base64 hObject hMem => exact .base64 hObject (hLe hMem)
  | array hObject hMem hAll hSub hOwn => exact .array hObject (hLe hMem) hAll (hSub.trans hLe) hOwn
  | struct hObject hMem hAll hSub hOwn => exact .struct hObject (hLe hMem) hAll (hSub.trans hLe) hOwn

theorem HoldsAll.frame {h h' : Heap} {vs : List Value} {cs : List Cell} {S : Set Nat}
    (hFrame : ∀ v ∈ vs, ∀ c A, Holds h v c A → (∀ a ∈ A, h'.objects a = h.objects a) → Holds h' v c A)
    (hAll : HoldsAll (Holds h) vs cs S) (hSame : ∀ a ∈ S, h'.objects a = h.objects a) : HoldsAll (Holds h') vs cs S := by
  induction vs generalizing cs S with
  | nil =>
    cases hAll
    exact .nil S
  | cons v vs ih =>
    cases hAll with
    | @cons _ c _ cs A B _ hHead hTail hDisjoint hHeadLe hTailLe =>
      have hHead' := hFrame v List.mem_cons_self c A hHead fun a ha => hSame a (hHeadLe ha)
      have hTail' := ih (fun w hw => hFrame w (List.mem_cons_of_mem v hw)) hTail fun a ha => hSame a (hTailLe ha)
      exact .cons hHead' hTail' hDisjoint hHeadLe hTailLe

theorem Holds.frame {h h' : Heap} {v : Value} {c : Cell} {S : Set Nat} (hHolds : Holds h v c S)
    (hSame : ∀ a ∈ S, h'.objects a = h.objects a) : Holds h' v c S := by
  induction v using Value.childInduction generalizing c S with
  | h v ih =>
    cases hHolds with
    | invalid => exact .invalid S
    | boolean b => exact .boolean b S
    | int i => exact .int i S
    | double bits => exact .double bits S
    | string hObject hMem => exact .string ((hSame _ hMem).trans hObject) hMem
    | dateTime hObject hMem => exact .dateTime ((hSame _ hMem).trans hObject) hMem
    | base64 hObject hMem => exact .base64 ((hSame _ hMem).trans hObject) hMem
    | array hObject hMem hAll hSub hOwn =>
      refine .array ((hSame _ hMem).trans hObject) hMem (hAll.frame ?_ fun a ha => hSame a (hSub ha)) hSub hOwn
      exact fun w hw c A hw' => ih w hw hw'
    | struct hObject hMem hAll hSub hOwn =>
      refine .struct ((hSame _ hMem).trans hObject) hMem (hAll.frame ?_ fun a ha => hSame a (hSub ha)) hSub hOwn
      exact fun w hw c A hw' => ih w hw hw'

/-! ## Copies -/

structure Heap.Extends (h h' : Heap) : Prop where
  next : h.next ≤ h'.next
  objects : ∀ a < h.next, h'.objects a = h.objects a

theorem Heap.Extends.refl (h : Heap) : h.Extends h := ⟨Nat.le_refl _, fun _ _ => rfl⟩

theorem Heap.Extends.trans {h h' h'' : Heap} (hFirst : h.Extends h') (hSecond : h'.Extends h'') : h.Extends h'' where
  next := Nat.le_trans hFirst.next hSecond.next
  objects a ha := (hSecond.objects a (Nat.lt_of_lt_of_le ha hFirst.next)).trans (hFirst.objects a ha)

theorem Heap.extends_new (h : Heap) (o : Object) : h.Extends (h.new o) where
  next := Nat.le_succ _
  objects _ ha := Function.update_of_ne (Nat.ne_of_lt ha) _ _

theorem Heap.new_objects (h : Heap) (o : Object) : (h.new o).objects h.next = some o := Function.update_self _ _ _

def Copies (v : Value) : Prop :=
  ∀ (h : Heap) (c : Cell), Holds h v c (Set.Iio h.next) → ∃ turns c' h', (∀ more, turns ≤ more → h.copy more c = some (c', h')) ∧
    h.Extends h' ∧ Holds h' v c' (Set.Ico h.next h'.next)

theorem copyAll_spec {vs : List Value} (hCopies : ∀ v ∈ vs, Copies v) {h : Heap} {cs : List Cell}
    (hAll : HoldsAll (Holds h) vs cs (Set.Iio h.next)) :
    ∃ turns cs' h', (∀ more, turns ≤ more → h.copyAll more cs = some (cs', h')) ∧ h.Extends h' ∧
      HoldsAll (Holds h') vs cs' (Set.Ico h.next h'.next) := by
  induction vs generalizing h cs with
  | nil =>
    cases hAll
    refine ⟨1, [], h, fun more hMore => ?_, .refl h, .nil _⟩
    obtain ⟨more, rfl⟩ := Nat.exists_eq_add_of_le' hMore
    rw [Heap.copyAll]
  | cons v vs ih =>
    cases hAll with
    | @cons _ c _ cs A B _ hHead hTail hDisjoint hHeadLe hTailLe =>
      obtain ⟨turns, c', h', hCopy, hExtends, hHolds⟩ := hCopies v List.mem_cons_self h c (hHead.mono hHeadLe)
      have hTail' : HoldsAll (Holds h') vs cs (Set.Iio h'.next) := by
        refine (hTail.frame (fun w _ c A hw => hw.frame) fun a ha => hExtends.objects a (hTailLe ha)).mono ?_
        exact hTailLe.trans (Set.Iio_subset_Iio hExtends.next)
      obtain ⟨turns', cs', h'', hCopyAll, hExtends', hHoldsAll⟩ :=
        ih (fun w hw => hCopies w (List.mem_cons_of_mem v hw)) hTail'
      refine ⟨max turns turns' + 1, c' :: cs', h'', fun more hMore => ?_, hExtends.trans hExtends', ?_⟩
      · obtain ⟨more, rfl⟩ := Nat.exists_eq_add_of_le' (Nat.le_trans (Nat.le_add_left 1 _) hMore)
        have hBoth := Nat.le_of_succ_le_succ hMore
        rw [Heap.copyAll, hCopy more (Nat.le_trans (Nat.le_max_left _ _) hBoth), Option.bind_some,
          hCopyAll more (Nat.le_trans (Nat.le_max_right _ _) hBoth), Option.map_some]
      · refine .cons (hHolds.frame fun a ha => hExtends'.objects a ha.2) hHoldsAll ?_ ?_ ?_
        · exact Set.disjoint_left.mpr fun a ha hb => Nat.not_le.mpr ha.2 hb.1
        · exact Set.Ico_subset_Ico_right hExtends'.next
        · exact Set.Ico_subset_Ico_left hExtends.next

theorem copies (v : Value) : Copies v := by
  induction v using Value.childInduction with
  | h v ih =>
    intro h c hHolds
    have hPlain (c' : Cell) (h' : Heap) (hCopy : ∀ more, h.copy (more + 1) c = some (c', h')) :
        ∀ more, 1 ≤ more → h.copy more c = some (c', h') := by
      intro more hMore
      obtain ⟨more, rfl⟩ := Nat.exists_eq_add_of_le' hMore
      exact hCopy more
    have hRegion (o : Object) : h.next ∈ Set.Ico h.next (h.new o).next := ⟨Nat.le_refl _, Nat.lt_succ_self _⟩
    cases hHolds with
    | invalid => exact ⟨1, .invalid, h, hPlain _ _ fun _ => rfl, .refl h, .invalid _⟩
    | boolean b => exact ⟨1, .boolean b, h, hPlain _ _ fun _ => rfl, .refl h, .boolean b _⟩
    | int i => exact ⟨1, .int i, h, hPlain _ _ fun _ => rfl, .refl h, .int i _⟩
    | double bits => exact ⟨1, .double bits, h, hPlain _ _ fun _ => rfl, .refl h, .double bits _⟩
    | string hObject hMem =>
      exact ⟨1, _, _, hPlain _ _ fun _ => by rw [Heap.copy, hObject], h.extends_new _, .string (h.new_objects _) (hRegion _)⟩
    | dateTime hObject hMem =>
      exact ⟨1, _, _, hPlain _ _ fun _ => by rw [Heap.copy, hObject], h.extends_new _, .dateTime (h.new_objects _) (hRegion _)⟩
    | base64 hObject hMem =>
      exact ⟨1, _, _, hPlain _ _ fun _ => by rw [Heap.copy, hObject], h.extends_new _, .base64 (h.new_objects _) (hRegion _)⟩
    | @array vs cs p _ A hObject hMem hAll hSub hOwn =>
      obtain ⟨turns, cs', h', hCopy, hExtends, hHolds⟩ := copyAll_spec ih (hAll.mono hSub)
      refine ⟨turns + 1, .array h'.next, h'.new (.array cs'), fun more hMore => ?_, hExtends.trans (h'.extends_new _), ?_⟩
      · obtain ⟨more, rfl⟩ := Nat.exists_eq_add_of_le' (Nat.le_trans (Nat.le_add_left 1 _) hMore)
        rw [Heap.copy, hObject]
        dsimp only
        rw [hCopy more (Nat.le_of_succ_le_succ hMore), Option.map_some]
      · refine .array (h'.new_objects _) ⟨hExtends.next, Nat.lt_succ_self _⟩ (hHolds.frame (fun w _ c A hw => hw.frame) ?_)
          (Set.Ico_subset_Ico_right (Nat.le_succ _)) fun hIn => absurd hIn.2 (Nat.lt_irrefl _)
        exact fun a ha => (h'.extends_new _).objects a ha.2
    | @struct ms cs p _ A hObject hMem hAll hSub hOwn =>
      obtain ⟨turns, cs', h', hCopy, hExtends, hHolds⟩ := copyAll_spec ih (hAll.mono hSub)
      refine ⟨turns + 1, .struct h'.next, h'.new (.struct (ms.map Prod.fst) cs'), fun more hMore => ?_,
        hExtends.trans (h'.extends_new _), ?_⟩
      · obtain ⟨more, rfl⟩ := Nat.exists_eq_add_of_le' (Nat.le_trans (Nat.le_add_left 1 _) hMore)
        rw [Heap.copy, hObject]
        dsimp only
        rw [hCopy more (Nat.le_of_succ_le_succ hMore), Option.map_some]
      · refine .struct (h'.new_objects _) ⟨hExtends.next, Nat.lt_succ_self _⟩ (hHolds.frame (fun w _ c A hw => hw.frame) ?_)
          (Set.Ico_subset_Ico_right (Nat.le_succ _)) fun hIn => absurd hIn.2 (Nat.lt_irrefl _)
        exact fun a ha => (h'.extends_new _).objects a ha.2

/-! ## Deletion -/

def Deletes (v : Value) : Prop :=
  ∀ (h : Heap) (c : Cell) (S : Set Nat), Holds h v c S → ∃ turns h', (∀ more, turns ≤ more → h.invalidate more c = some h') ∧
    h'.next = h.next ∧ ∀ a ∉ S, h'.objects a = h.objects a

theorem Heap.delete_objects (h : Heap) {p : Nat} {S : Set Nat} (hMem : p ∈ S) : ∀ a ∉ S, (h.delete p).objects a = h.objects a := by
  intro a ha
  have hNe : a ≠ p := fun hEq => ha (hEq ▸ hMem)
  exact Function.update_of_ne hNe _ _

theorem invalidateAll_spec {vs : List Value} (hDeletes : ∀ v ∈ vs, Deletes v) {h : Heap} {cs : List Cell} {S : Set Nat}
    (hAll : HoldsAll (Holds h) vs cs S) :
    ∃ turns h', (∀ more, turns ≤ more → h.invalidateAll more cs = some h') ∧ h'.next = h.next ∧
      ∀ a ∉ S, h'.objects a = h.objects a := by
  induction vs generalizing h cs S with
  | nil =>
    cases hAll
    refine ⟨1, h, fun more hMore => ?_, rfl, fun _ _ => rfl⟩
    obtain ⟨more, rfl⟩ := Nat.exists_eq_add_of_le' hMore
    rw [Heap.invalidateAll]
  | cons v vs ih =>
    cases hAll with
    | @cons _ c _ cs A B _ hHead hTail hDisjoint hHeadLe hTailLe =>
      obtain ⟨turns, h', hDelete, hNext, hSame⟩ := hDeletes v List.mem_cons_self h c A hHead
      have hTail' : HoldsAll (Holds h') vs cs B := by
        refine hTail.frame (fun w _ c A hw => hw.frame) fun a ha => hSame a ?_
        exact fun hIn => Set.disjoint_left.mp hDisjoint hIn ha
      obtain ⟨turns', h'', hDeleteAll, hNext', hSame'⟩ := ih (fun w hw => hDeletes w (List.mem_cons_of_mem v hw)) hTail'
      refine ⟨max turns turns' + 1, h'', fun more hMore => ?_, hNext'.trans hNext, fun a ha => ?_⟩
      · obtain ⟨more, rfl⟩ := Nat.exists_eq_add_of_le' (Nat.le_trans (Nat.le_add_left 1 _) hMore)
        have hBoth := Nat.le_of_succ_le_succ hMore
        rw [Heap.invalidateAll, hDelete more (Nat.le_trans (Nat.le_max_left _ _) hBoth), Option.bind_some,
          hDeleteAll more (Nat.le_trans (Nat.le_max_right _ _) hBoth)]
      · exact (hSame' a fun hIn => ha (hTailLe hIn)).trans (hSame a fun hIn => ha (hHeadLe hIn))

theorem deletes (v : Value) : Deletes v := by
  induction v using Value.childInduction with
  | h v ih =>
    intro h c S hHolds
    have hPlain (h' : Heap) (hDelete : ∀ more, h.invalidate (more + 1) c = some h') :
        ∀ more, 1 ≤ more → h.invalidate more c = some h' := by
      intro more hMore
      obtain ⟨more, rfl⟩ := Nat.exists_eq_add_of_le' hMore
      exact hDelete more
    cases hHolds with
    | invalid => exact ⟨1, h, hPlain h fun _ => rfl, rfl, fun _ _ => rfl⟩
    | boolean b => exact ⟨1, h, hPlain h fun _ => rfl, rfl, fun _ _ => rfl⟩
    | int i => exact ⟨1, h, hPlain h fun _ => rfl, rfl, fun _ _ => rfl⟩
    | double bits => exact ⟨1, h, hPlain h fun _ => rfl, rfl, fun _ _ => rfl⟩
    | @string _ p _ hObject hMem =>
      exact ⟨1, h.delete p, hPlain _ fun _ => by rw [Heap.invalidate, hObject], rfl, h.delete_objects hMem⟩
    | @dateTime _ p _ hObject hMem =>
      exact ⟨1, h.delete p, hPlain _ fun _ => by rw [Heap.invalidate, hObject], rfl, h.delete_objects hMem⟩
    | @base64 _ p _ hObject hMem =>
      exact ⟨1, h.delete p, hPlain _ fun _ => by rw [Heap.invalidate, hObject], rfl, h.delete_objects hMem⟩
    | @array vs cs p _ A hObject hMem hAll hSub hOwn =>
      obtain ⟨turns, h', hDelete, hNext, hSame⟩ := invalidateAll_spec ih hAll
      refine ⟨turns + 1, h'.delete p, fun more hMore => ?_, hNext, fun a ha => ?_⟩
      · obtain ⟨more, rfl⟩ := Nat.exists_eq_add_of_le' (Nat.le_trans (Nat.le_add_left 1 _) hMore)
        rw [Heap.invalidate, hObject]
        dsimp only
        rw [hDelete more (Nat.le_of_succ_le_succ hMore), Option.map_some]
      · exact (h'.delete_objects hMem a ha).trans (hSame a fun hIn => ha (hSub hIn))
    | @struct ms cs p _ A hObject hMem hAll hSub hOwn =>
      obtain ⟨turns, h', hDelete, hNext, hSame⟩ := invalidateAll_spec ih hAll
      refine ⟨turns + 1, h'.delete p, fun more hMore => ?_, hNext, fun a ha => ?_⟩
      · obtain ⟨more, rfl⟩ := Nat.exists_eq_add_of_le' (Nat.le_trans (Nat.le_add_left 1 _) hMore)
        rw [Heap.invalidate, hObject]
        dsimp only
        rw [hDelete more (Nat.le_of_succ_le_succ hMore), Option.map_some]
      · exact (h'.delete_objects hMem a ha).trans (hSame a fun hIn => ha (hSub hIn))

/-! ## Assignment -/

/-- After `this = rhs` both sides stand for what the right side stood for, and what they are made of stands in regions
that have nothing in common. -/
def Assigns (h : Heap) (v : Value) (this rhs : Cell) (T : Set Nat) : Prop :=
  ∃ turns this' h' U, (∀ more, turns ≤ more → h.assign more this rhs = some (this', h')) ∧ Holds h' v this' U ∧
    Holds h' v rhs T ∧ Disjoint U T

theorem assigns {h : Heap} {v w : Value} {this rhs : Cell} {S T : Set Nat} (hThis : Holds h v this S)
    (hRhs : Holds h w rhs T) (hDisjoint : Disjoint S T) (hMade : T ⊆ Set.Iio h.next) : Assigns h w this rhs T := by
  obtain ⟨turns, h', hDelete, hNext, hSame⟩ := deletes v h this S hThis
  have hRhs' : Holds h' w rhs T := hRhs.frame fun a ha => hSame a fun hIn => Set.disjoint_left.mp hDisjoint hIn ha
  have hMade' : T ⊆ Set.Iio h'.next := by rwa [hNext]
  obtain ⟨turns', this', h'', hCopy, hExtends, hHolds⟩ := copies w h' rhs (hRhs'.mono hMade')
  refine ⟨max turns turns', this', h'', _, fun more hMore => ?_, hHolds, ?_, ?_⟩
  · rw [Heap.assign, hDelete more (Nat.le_trans (Nat.le_max_left _ _) hMore), Option.bind_some,
      hCopy more (Nat.le_trans (Nat.le_max_right _ _) hMore)]
  · exact hRhs'.frame fun a ha => hExtends.objects a (hMade' ha)
  · exact Set.disjoint_left.mpr fun a ha hIn => Nat.not_le.mpr (hMade' hIn) ha.1

end XcRos.Rpc
