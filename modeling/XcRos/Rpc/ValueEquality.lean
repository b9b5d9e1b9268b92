import XcRos.Foundation.Lines
import XcRos.Rpc.Value

/-! # Equality of values

`operator==` against the equality of what two values hold. A struct holds a value under each of its names, but
`operator==` goes through the members of two structs side by side and compares their values alone.
-/

namespace XcRos.Rpc

open XcRos.Foundation

def tmEq (t1 t2 : Tm) : Bool :=
  t1.sec == t2.sec && t1.min == t2.min && t1.hour == t2.hour && t1.mday == t2.mday && t1.mon == t2.mon &&
    t1.year == t2.year

/-- `==` on doubles: no NaN is equal to anything, and both zeros are equal. -/
def doubleEq (a b : UInt64) : Bool :=
  let isNaN (bits : UInt64) : Bool := 0x7FF0000000000000 < (bits &&& 0x7FFFFFFFFFFFFFFF)
  !isNaN a && !isNaN b && (a == b || (a <<< 1 == 0 && b <<< 1 == 0))

mutual

/-- `XmlRpcValue::operator==` -/
def Value.eq : Value → Value → Bool
  | .invalid, .invalid => true
  | .boolean a, .boolean b => (!a && !b) || (a && b)
  | .int a, .int b => a == b
  | .double a, .double b => doubleEq a b
  | .dateTime a, .dateTime b => tmEq a b
  | .string a, .string b => a == b
  | .base64 a, .base64 b => a == b
  | .array as, .array bs => as.length == bs.length && elementsEq as bs
  | .struct ms, .struct ns => if ms.length ≠ ns.length then false else membersEq ms ns
  | _, _ => false

/-- The loop of `std::equal` over two vectors. -/
def elementsEq : List Value → List Value → Bool
  | a :: as, b :: bs => a.eq b && elementsEq as bs
  | _, _ => true

def membersEq : List (Bytes × Value) → List (Bytes × Value) → Bool
  | m :: ms, n :: ns => secondEq m n.2 && membersEq ms ns
  | _, _ => true

/-- `it1->second == v2` -/
def secondEq : Bytes × Value → Value → Bool
  | (_, v1), v2 => v1.eq v2

end

/-! ## What values hold -/

inductive Content where
  | invalid
  | boolean (b : Bool)
  | int (i : Int32)
  | double (bits : UInt64)
  | string (s : Bytes)
  | dateTime (t : Tm)
  | base64 (data : Bytes)
  | array (elements : List Content)
  | struct (member : Bytes → Option Content)

mutual

def Value.content : Value → Content
  | .invalid => .invalid
  | .boolean b => .boolean b
  | .int i => .int i
  | .double bits => .double bits
  | .string s => .string s
  | .dateTime t => .dateTime t
  | .base64 data => .base64 data
  | .array elements => .array (elementsContent elements)
  | .struct members => .struct fun name => ((membersContent members).find? fun e => e.1 = name).map Prod.snd

def elementsContent : List Value → List Content
  | [] => []
  | v :: vs => v.content :: elementsContent vs

def membersContent : List (Bytes × Value) → List (Bytes × Content)
  | [] => []
  | m :: ms => memberContent m :: membersContent ms

def memberContent : Bytes × Value → Bytes × Content
  | (name, v) => (name, v.content)

end

mutual

def Value.forgetNames : Value → Value
  | .invalid => .invalid
  | .boolean b => .boolean b
  | .int i => .int i
  | .double bits => .double bits
  | .string s => .string s
  | .dateTime t => .dateTime t
  | .base64 data => .base64 data
  | .array elements => .array (elementsForget elements)
  | .struct members => .struct (membersForget members)

def elementsForget : List Value → List Value
  | [] => []
  | v :: vs => v.forgetNames :: elementsForget vs

def membersForget : List (Bytes × Value) → List (Bytes × Value)
  | [] => []
  | m :: ms => memberForget m :: membersForget ms

def memberForget : Bytes × Value → Bytes × Value
  | (_, v) => ([], v.forgetNames)

end

/-- Values without doubles, to any depth; the names of a struct are those of a map. -/
inductive Value.Comparable : Value → Prop
  | invalid : Comparable .invalid
  | boolean (b : Bool) : Comparable (.boolean b)
  | int (i : Int32) : Comparable (.int i)
  | string (s : Bytes) : Comparable (.string s)
  | dateTime (t : Tm) : Comparable (.dateTime t)
  | base64 (data : Bytes) : Comparable (.base64 data)
  | array {elements : List Value} (hElements : ∀ v ∈ elements, Comparable v) : Comparable (.array elements)
  | struct {members : List (Bytes × Value)} (hSorted : KeysSorted members) (hMembers : ∀ m ∈ members, Comparable m.2) :
      Comparable (.struct members)

theorem elementsContent_eq (vs : List Value) : elementsContent vs = vs.map Value.content := by
  induction vs with
  | nil => rfl
  | cons v vs ih => rw [elementsContent, ih, List.map_cons]

theorem membersContent_eq (ms : List (Bytes × Value)) : membersContent ms = ms.map fun m => (m.1, m.2.content) := by
  induction ms with
  | nil => rfl
  | cons m ms ih =>
    obtain ⟨name, v⟩ := m
    rw [membersContent, ih, memberContent, List.map_cons]

theorem elementsForget_eq (vs : List Value) : elementsForget vs = vs.map Value.forgetNames := by
  induction vs with
  | nil => rfl
  | cons v vs ih => rw [elementsForget, ih, List.map_cons]

theorem membersForget_eq (ms : List (Bytes × Value)) : membersForget ms = ms.map fun m => ([], m.2.forgetNames) := by
  induction ms with
  | nil => rfl
  | cons m ms ih =>
    obtain ⟨name, v⟩ := m
    rw [membersForget, ih, memberForget, List.map_cons]

/-! ## `operator==` -/

theorem tmEq_iff {t1 t2 : Tm} : tmEq t1 t2 = true ↔ t1 = t2 := by
  obtain ⟨sec, min, hour, mday, mon, year⟩ := t1
  obtain ⟨sec', min', hour', mday', mon', year'⟩ := t2
  simp [tmEq, and_assoc]

theorem elementsEq_iff {as bs : List Value} (h : ∀ a ∈ as, ∀ b, a.eq b = true ↔ a.forgetNames = b.forgetNames)
    (hLength : as.length = bs.length) : elementsEq as bs = true ↔ elementsForget as = elementsForget bs := by
  induction as generalizing bs with
  | nil =>
    rw [List.eq_nil_of_length_eq_zero hLength.symm]
    simp [elementsEq]
  | cons a as ih =>
    obtain ⟨b, bs, rfl⟩ := List.exists_cons_of_length_eq_add_one hLength.symm
    rw [elementsEq, Bool.and_eq_true, h a List.mem_cons_self,
      ih (fun c hc => h c (List.mem_cons_of_mem a hc)) (Nat.succ.inj hLength), elementsForget, elementsForget,
      List.cons.injEq]

theorem membersEq_iff {ms ns : List (Bytes × Value)}
    (h : ∀ m ∈ ms, ∀ b, m.2.eq b = true ↔ m.2.forgetNames = b.forgetNames) (hLength : ms.length = ns.length) :
    membersEq ms ns = true ↔ membersForget ms = membersForget ns := by
  induction ms generalizing ns with
  | nil =>
    rw [List.eq_nil_of_length_eq_zero hLength.symm]
    simp [membersEq]
  | cons m ms ih =>
    obtain ⟨n, ns, rfl⟩ := List.exists_cons_of_length_eq_add_one hLength.symm
    have hSecond : secondEq m n.2 = true ↔ memberForget m = memberForget n := by
      obtain ⟨name, v⟩ := m
      obtain ⟨other, w⟩ := n
      rw [secondEq, h (name, v) List.mem_cons_self, memberForget, memberForget, Prod.mk.injEq]
      simp
    rw [membersEq, Bool.and_eq_true, hSecond, ih (fun c hc => h c (List.mem_cons_of_mem m hc)) (Nat.succ.inj hLength),
      membersForget, membersForget, List.cons.injEq]

theorem eq_iff_forgetNames {a : Value} (h : a.Comparable) (b : Value) :
    a.eq b = true ↔ a.forgetNames = b.forgetNames := by
  induction h generalizing b with
  | invalid => cases b <;> simp [Value.eq, Value.forgetNames]
  | boolean c =>
    cases b with
    | boolean d => cases c <;> cases d <;> simp [Value.eq, Value.forgetNames]
    | _ => simp [Value.eq, Value.forgetNames]
  | int i => cases b <;> simp [Value.eq, Value.forgetNames]
  | string s => cases b <;> simp [Value.eq, Value.forgetNames]
  | dateTime t => cases b <;> simp [Value.eq, Value.forgetNames, tmEq_iff]
  | base64 data => cases b <;> simp [Value.eq, Value.forgetNames]
  | @array as hElements ih =>
    cases b with
    | array bs =>
      rw [Value.eq, Bool.and_eq_true, beq_iff_eq, Value.forgetNames, Value.forgetNames, Value.array.injEq]
      constructor
      · exact fun hEq => (elementsEq_iff ih hEq.1).mp hEq.2
      · intro hForget
        have hLength : as.length = bs.length := by
          have := congrArg List.length hForget
          rwa [elementsForget_eq, elementsForget_eq, List.length_map, List.length_map] at this
        exact ⟨hLength, (elementsEq_iff ih hLength).mpr hForget⟩
    | _ => simp [Value.eq, Value.forgetNames]
  | @struct ms hSorted hMembers ih =>
    cases b with
    | struct ns =>
      rw [Value.eq, Value.forgetNames, Value.forgetNames, Value.struct.injEq]
      by_cases hLength : ms.length = ns.length
      · rw [if_neg (fun hNe => hNe hLength), membersEq_iff ih hLength]
      · rw [if_pos hLength]
        refine iff_of_false (by simp) fun hForget => hLength ?_
        have := congrArg List.length hForget
        rwa [membersForget_eq, membersForget_eq, List.length_map, List.length_map] at this
    | _ => simp [Value.eq, Value.forgetNames]

/-! ## Content -/

theorem keysSorted_membersContent {ms : List (Bytes × Value)} (h : KeysSorted ms) : KeysSorted (membersContent ms) := by
  rw [membersContent_eq]
  exact List.pairwise_map.mpr h

theorem content_injective {a b : Value} (ha : a.Comparable) (hb : b.Comparable) (h : a.content = b.content) : a = b := by
  induction ha generalizing b with
  | @array as hElements ih =>
    cases hb with
    | @array bs hOther =>
      rw [Value.content, Value.content, Content.array.injEq, elementsContent_eq, elementsContent_eq] at h
      rw [eq_of_map_eq (fun v hv w hw => ih v hv (hOther w hw)) h]
    | _ => simp [Value.content] at h
  | @struct ms hSorted hMembers ih =>
    cases hb with
    | @struct ns hSorted' hOther =>
      rw [Value.content, Value.content, Content.struct.injEq] at h
      have hSame := keysSorted_ext (keysSorted_membersContent hSorted) (keysSorted_membersContent hSorted') (congrFun h)
      rw [membersContent_eq, membersContent_eq] at hSame
      rw [eq_of_map_eq (fun m hm n hn hEq => ?_) hSame]
      obtain ⟨hName, hValue⟩ := Prod.mk.inj hEq
      exact Prod.ext hName (ih m hm (hOther n hn) hValue)
    | _ => simp [Value.content] at h
  | _ => cases hb <;> simp_all [Value.content]

/-! ## When `operator==` is exact -/

/-- Two values that differ, but in nothing other than names of struct members. -/
def DifferInNamesOnly (a b : Value) : Prop := a.content ≠ b.content ∧ a.forgetNames = b.forgetNames

theorem eq_exact_iff {a b : Value} (ha : a.Comparable) (hb : b.Comparable) :
    (a.eq b = true ↔ a.content = b.content) ↔ ¬ DifferInNamesOnly a b := by
  rw [eq_iff_forgetNames ha]
  constructor
  · exact fun hExact hNames => hNames.1 (hExact.mp hNames.2)
  · intro hNot
    refine ⟨fun hForget => ?_, fun hSame => ?_⟩
    · by_contra hDiffer
      exact hNot ⟨hDiffer, hForget⟩
    · rw [content_injective ha hb hSame]

theorem eq_refl {a : Value} (ha : a.Comparable) : a.eq a = true := (eq_iff_forgetNames ha a).mpr rfl

theorem eq_symm {a b : Value} (ha : a.Comparable) (hb : b.Comparable) (h : a.eq b = true) : b.eq a = true :=
  (eq_iff_forgetNames hb a).mpr ((eq_iff_forgetNames ha b).mp h).symm

theorem eq_trans {a b c : Value} (ha : a.Comparable) (hb : b.Comparable) (h : a.eq b = true) (h' : b.eq c = true) :
    a.eq c = true :=
  (eq_iff_forgetNames ha c).mpr (((eq_iff_forgetNames ha b).mp h).trans ((eq_iff_forgetNames hb c).mp h'))

end XcRos.Rpc
