import XcRos.Rpc.ValueArray

/-! # Typed parameter containers

The templates `setImpl` and `getImpl` of `param.cpp` for vectors and for maps with string keys. A container is made a
value, which reaches the master and comes back as XML; its elements are cast one by one into a container that may
hold something already.
-/

namespace XcRos.Libros.ParamContainers

open XcRos.Foundation XcRos.Rpc

/-- What C++ makes of a double that is cast to an integer or to a truth value. -/
class DoubleCast where
  toInt : UInt64 → Int32
  isTrue : UInt64 → Bool

/-- The element types that are instantiated without floating point. -/
inductive Element where
  | string
  | int
  | bool
deriving DecidableEq, Repr

namespace Element

def Carrier : Element → Type
  | .string => Bytes
  | .int => Int32
  | .bool => Bool

instance (e : Element) : DecidableEq e.Carrier :=
  match e with
  | .string => inferInstanceAs (DecidableEq Bytes)
  | .int => inferInstanceAs (DecidableEq Int32)
  | .bool => inferInstanceAs (DecidableEq Bool)

/-- `T()` -/
def initial : (e : Element) → e.Carrier
  | .string => ([] : Bytes)
  | .int => (0 : Int32)
  | .bool => false

/-- The constructor of `XmlRpcValue` for an element. -/
def construct : (e : Element) → e.Carrier → Value
  | .string, s => .string s
  | .int, i => .int i
  | .bool, b => .boolean b

/-- `xml_castable<T>` -/
def castable : Element → Value → Bool
  | .string, .string _ => true
  | .string, _ => false
  | _, .double _ => true
  | _, .int _ => true
  | _, .boolean _ => true
  | _, _ => false

/-- `xml_cast<T>`; a conversion that throws is `none`. -/
def cast [DoubleCast] : (e : Element) → Value → Option e.Carrier
  | .string, .string s => some s
  | .string, .invalid => some ([] : Bytes)
  | .string, _ => none
  | .int, .double bits => some (DoubleCast.toInt bits)
  | .int, .int i => some i
  | .int, .boolean b => some (if b then (1 : Int32) else (0 : Int32))
  | .int, _ => some (0 : Int32)
  | .bool, .double bits => some (DoubleCast.isTrue bits)
  | .bool, .int i => some (i != 0)
  | .bool, .boolean b => some b
  | .bool, _ => some false

end Element

/-- `std::map<std::string, T>` -/
structure StdMap (α : Type) where
  entries : List (Bytes × α)
  sorted : KeysSorted entries

section

variable {e : Element}

/-! ## To values -/

/-- `setImpl` for a vector, up to the call to the master. -/
def setVector (e : Element) (vec : List e.Carrier) : Option Value :=
  (Value.invalid.setSize vec.length).bind (Value.assignEach (fun x => some (e.construct x)) 0 vec)

/-- `setImpl` for a map, up to the call to the master. -/
def setMap (e : Element) (map : StdMap e.Carrier) : Value :=
  .struct (map.entries.foldl (fun members it => insertOrAssign it.1 (e.construct it.2) members) [])

def transport [DoubleText] (v : Value) : Option Value := (fromXml v.toXml 0).map Prod.fst

/-! ## From values -/

/-- `vec.resize(size)` -/
def resize (e : Element) (size : Nat) (vec : List e.Carrier) : List e.Carrier :=
  vec.take size ++ List.replicate (size - vec.length) e.initial

/-- The loop of `getImpl` over an array, with the cells that are still to be filled. -/
def fillVector [DoubleCast] (e : Element) : List Value → List e.Carrier → Option (Bool × List e.Carrier)
  | [], cells => some (true, cells)
  | v :: vs, cells =>
    if e.castable v then (e.cast v).bind fun x => (fillVector e vs cells.tail).map fun r => (r.1, x :: r.2)
    else some (false, cells)

/-- `getImpl` for a vector, from the master's answer on. -/
def getVector [DoubleCast] (e : Element) (answer : Value) (vec : List e.Carrier) : Option (Bool × List e.Carrier) :=
  match answer with
  | .array elements => fillVector e elements (resize e elements.length vec)
  | _ => some (false, vec)

/-- The loop of `getImpl` over a struct. -/
def fillMap [DoubleCast] (e : Element) :
    List (Bytes × Value) → List (Bytes × e.Carrier) → Option (Bool × List (Bytes × e.Carrier))
  | [], map => some (true, map)
  | it :: members, map =>
    if e.castable it.2 then (e.cast it.2).bind fun x => fillMap e members (insertOrAssign it.1 x map)
    else some (false, map)

/-- `getImpl` for a map, from the master's answer on. The map is not cleared. -/
def getMap [DoubleCast] (e : Element) (answer : Value) (map : List (Bytes × e.Carrier)) :
    Option (Bool × List (Bytes × e.Carrier)) :=
  match answer with
  | .struct members => fillMap e members map
  | _ => some (false, map)

/-! ## Set and get -/

/-- `set(key, c)` and `get(key, out)` for vectors. -/
def setGetVector [DoubleText] [DoubleCast] (e : Element) (c out : List e.Carrier) : Option (Bool × List e.Carrier) :=
  (setVector e c).bind fun v => (transport v).bind fun stored => (transport stored).bind fun answer =>
    getVector e answer out

/-- `set(key, c)` and `get(key, out)` for maps. -/
def setGetMap [DoubleText] [DoubleCast] (e : Element) (c out : StdMap e.Carrier) :
    Option (Bool × List (Bytes × e.Carrier)) :=
  (transport (setMap e c)).bind fun stored => (transport stored).bind fun answer => getMap e answer out.entries

theorem castable_construct (x : e.Carrier) : e.castable (e.construct x) = true := by
  cases e <;> rfl

theorem cast_construct [DoubleCast] (x : e.Carrier) : e.cast (e.construct x) = some x := by
  cases e <;> rfl

theorem codable_construct [DoubleText] (x : e.Carrier) : (e.construct x).Codable := by
  cases e with
  | string => exact .string x
  | int => exact .int x
  | bool => exact .boolean x

theorem transport_codable [DoubleText] {v : Value} (h : v.Codable) :
    transport v = if v.toXml.length ≤ intMax then some v else none := by
  rw [transport]
  split
  · rename_i hLength
    rw [fromXml_of_codable h hLength]
    rfl
  · rename_i hLong
    rw [fromXml_overlong (Nat.not_le.mp hLong)]
    rfl

theorem transport_twice [DoubleText] {β : Type} {v : Value} (h : v.Codable) (f : Value → Option β) :
    ((transport v).bind fun stored => (transport stored).bind f) = if v.toXml.length ≤ intMax then f v else none := by
  rw [transport_codable h]
  split
  · rename_i hLength
    rw [Option.bind_some, transport_codable h, if_pos hLength, Option.bind_some]
  · rfl

/-! ### Vectors -/

def vectorValue (e : Element) (vec : List e.Carrier) : Value := .array (vec.map e.construct)

theorem codable_vectorValue [DoubleText] (vec : List e.Carrier) : (vectorValue e vec).Codable := by
  refine .array fun v hv => ?_
  obtain ⟨x, -, rfl⟩ := List.mem_map.mp hv
  exact codable_construct x

theorem mapM_construct (vec : List e.Carrier) :
    vec.mapM (fun x => some (e.construct x)) = some (vec.map e.construct) := by
  induction vec with
  | nil => rfl
  | cons x vec ih =>
    rw [List.mapM_cons, ih]
    rfl

theorem setVector_eq (vec : List e.Carrier) :
    setVector e vec = (Value.array (List.replicate vec.length .invalid)).assignEach (fun x => some (e.construct x)) 0 vec :=
  rfl

theorem setVector_of_le {vec : List e.Carrier} (h : vec.length ≤ intMax) : setVector e vec = some (vectorValue e vec) := by
  rw [setVector_eq, Value.assignEach_mapM (mapM_construct vec)]
  exact Value.fill_array (by simp) (by rwa [List.length_map])

theorem eq_of_setVector {vec : List e.Carrier} {v : Value} (h : setVector e vec = some v) : v = vectorValue e vec := by
  rw [setVector_eq] at h
  obtain ⟨xs, hxs, rfl⟩ := @Value.assignEach_over _ _ _ [] _ _ h
  rw [mapM_construct, Option.some.injEq] at hxs
  subst hxs
  have hDrop : (List.replicate vec.length Value.invalid).drop (vec.map e.construct).length = [] :=
    List.drop_eq_nil_of_le (by simp)
  rw [hDrop, List.append_nil, List.nil_append, vectorValue]

theorem length_le_vectorValue [DoubleText] (vec : List e.Carrier) : vec.length ≤ (vectorValue e vec).toXml.length := by
  have hElements : (vec.map e.construct).length ≤ (elementsToXml (vec.map e.construct)).length := by
    refine length_le_elementsToXml fun v hv => ?_
    obtain ⟨x, -, rfl⟩ := List.mem_map.mp hv
    exact codable_construct x
  rw [List.length_map] at hElements
  simp only [vectorValue, Value.toXml, List.length_append]
  omega

theorem length_resize (size : Nat) (vec : List e.Carrier) : (resize e size vec).length = size := by
  rw [resize, List.length_append, List.length_take, List.length_replicate]
  omega

theorem fillVector_construct [DoubleCast] (vec : List e.Carrier) {cells : List e.Carrier}
    (h : cells.length = vec.length) : fillVector e (vec.map e.construct) cells = some (true, vec) := by
  induction vec generalizing cells with
  | nil =>
    rw [List.eq_nil_of_length_eq_zero h]
    rfl
  | cons x vec ih =>
    have hTail : cells.tail.length = vec.length := by
      rw [List.length_tail, h, List.length_cons, Nat.add_sub_cancel]
    rw [List.map_cons, fillVector, if_pos (castable_construct x), cast_construct, Option.bind_some, ih hTail]
    rfl

theorem setGetVector_iff [DoubleText] [DoubleCast] (c out : List e.Carrier) :
    setGetVector e c out = some (true, c) ↔ (vectorValue e c).toXml.length ≤ intMax := by
  have hCodable := codable_vectorValue c
  constructor
  · intro h
    obtain ⟨v, hSet, hRest⟩ := Option.bind_eq_some_iff.mp h
    rw [eq_of_setVector hSet, transport_twice hCodable] at hRest
    by_contra hLong
    rw [if_neg hLong] at hRest
    cases hRest
  · intro hLength
    rw [setGetVector, setVector_of_le ((length_le_vectorValue c).trans hLength), Option.bind_some,
      transport_twice hCodable, if_pos hLength]
    refine fillVector_construct c ?_
    rw [length_resize, List.length_map]

/-! ### Maps -/

def mapMembers (e : Element) (entries : List (Bytes × e.Carrier)) : List (Bytes × Value) :=
  entries.map fun it => (it.1, e.construct it.2)

theorem keysSorted_mapMembers {entries : List (Bytes × e.Carrier)} (h : KeysSorted entries) :
    KeysSorted (mapMembers e entries) :=
  List.pairwise_map.mpr h

theorem setMap_eq (map : StdMap e.Carrier) : setMap e map = .struct (mapMembers e map.entries) := by
  have hLoop (front entries : List (Bytes × e.Carrier)) (h : KeysSorted (front ++ entries)) :
      entries.foldl (fun members it => insertOrAssign it.1 (e.construct it.2) members) (mapMembers e front) =
        mapMembers e (front ++ entries) := by
    induction entries generalizing front with
    | nil => rw [List.append_nil]; rfl
    | cons it entries ih =>
      have hLast : ∀ member ∈ mapMembers e front, member.1 < it.1 := by
        intro member hMember
        obtain ⟨entry, hEntry, rfl⟩ := List.mem_map.mp hMember
        exact (List.pairwise_append.mp h).2.2 entry hEntry it List.mem_cons_self
      have hNext := ih (front ++ [it]) (by rwa [List.append_assoc])
      rw [List.append_assoc] at hNext
      have hFront : mapMembers e front ++ [(it.1, e.construct it.2)] = mapMembers e (front ++ [it]) := by
        rw [mapMembers, mapMembers, List.map_append]
        rfl
      rw [List.foldl_cons, insertOrAssign_last _ hLast, hFront]
      exact hNext
  exact congrArg Value.struct (hLoop [] map.entries map.sorted)

theorem codable_setMap [DoubleText] {map : StdMap e.Carrier} (hPlain : ∀ it ∈ map.entries, PlainName it.1) :
    (setMap e map).Codable := by
  rw [setMap_eq]
  refine .struct (keysSorted_mapMembers map.sorted) (fun m hm => ?_) fun m hm => ?_
  · obtain ⟨it, hIt, rfl⟩ := List.mem_map.mp hm
    exact hPlain it hIt
  · obtain ⟨it, -, rfl⟩ := List.mem_map.mp hm
    exact codable_construct it.2

theorem fillMap_construct [DoubleCast] (entries into : List (Bytes × e.Carrier)) :
    fillMap e (mapMembers e entries) into = some (true, assignAll entries into) := by
  induction entries generalizing into with
  | nil => rfl
  | cons it entries ih =>
    rw [mapMembers, List.map_cons, fillMap, if_pos (castable_construct it.2), cast_construct, Option.bind_some]
    exact ih _

theorem setGetMap_iff [DoubleText] [DoubleCast] {c : StdMap e.Carrier} (hPlain : ∀ it ∈ c.entries, PlainName it.1)
    (out : StdMap e.Carrier) :
    setGetMap e c out = some (true, c.entries) ↔
      (setMap e c).toXml.length ≤ intMax ∧ ∀ it ∈ out.entries, ∃ other ∈ c.entries, other.1 = it.1 := by
  rw [setGetMap, transport_twice (codable_setMap hPlain)]
  split
  · rename_i hLength
    have hGet : getMap e (setMap e c) out.entries = some (true, assignAll c.entries out.entries) := by
      rw [setMap_eq]
      exact fillMap_construct c.entries out.entries
    rw [hGet, and_iff_right hLength, ← assignAll_eq_iff c.sorted out.sorted, Option.some.injEq, Prod.mk.injEq,
      and_iff_right rfl]
  · rename_i hLong
    refine iff_of_false (fun h => ?_) fun h => hLong h.1
    cases h

/-- A vector comes back whatever was in the output; a map keeps what was there under other keys. -/
theorem containers_roundTrip_iff [DoubleText] [DoubleCast] (e : Element) (vec vecOut : List e.Carrier)
    {map : StdMap e.Carrier} (hPlain : ∀ it ∈ map.entries, PlainName it.1) (mapOut : StdMap e.Carrier) :
    (setGetVector e vec vecOut = some (true, vec) ↔ (vectorValue e vec).toXml.length ≤ intMax) ∧
    (setGetMap e map mapOut = some (true, map.entries) ↔
      (setMap e map).toXml.length ≤ intMax ∧ ∀ it ∈ mapOut.entries, ∃ other ∈ map.entries, other.1 = it.1) :=
  ⟨setGetVector_iff vec vecOut, setGetMap_iff hPlain mapOut⟩

/-! ## Samples -/

abbrev plainCast : DoubleCast := ⟨fun _ => 0, fun _ => false⟩

def sampleSpeed : StdMap Element.int.Carrier := ⟨[(bytes "speed", (3 : Int32))], List.pairwise_singleton _ _⟩

def sampleAccel : StdMap Element.int.Carrier := ⟨[(bytes "accel", (1 : Int32))], List.pairwise_singleton _ _⟩

theorem containers_roundTrip_speed :
    @setGetVector noDoubles plainCast .int [(3 : Int32)] [] = some (true, [(3 : Int32)]) ∧
      @setGetMap noDoubles plainCast .int sampleSpeed sampleSpeed = some (true, sampleSpeed.entries) := by
  have hPlain : ∀ it ∈ sampleSpeed.entries, PlainName it.1 := by
    intro it hIt
    rw [List.mem_singleton.mp hIt]
    have hSpeed : (bytes "speed").all (fun c => !(bytes "<>&'\"").contains c) = true := by decide
    intro c hc hSpecial
    have hNot := List.all_eq_true.mp hSpeed c hc
    rw [List.contains_iff_mem.mpr hSpecial] at hNot
    cases hNot
  have h := @containers_roundTrip_iff noDoubles plainCast .int [(3 : Int32)] [] sampleSpeed hPlain sampleSpeed
  refine ⟨h.1.mpr (by decide), h.2.mpr ⟨by decide, fun it hIt => ⟨it, hIt, rfl⟩⟩⟩

/-- What the output held before is found among what was set. -/
theorem getMap_keeps :
    @setGetMap noDoubles plainCast .int sampleSpeed sampleAccel =
        some (true, [(bytes "accel", (1 : Int32)), (bytes "speed", (3 : Int32))]) ∧
      @setGetMap noDoubles plainCast .int sampleSpeed sampleAccel ≠ some (true, sampleSpeed.entries) := by
  have hGet : @setGetMap noDoubles plainCast .int sampleSpeed sampleAccel =
      some (true, [(bytes "accel", (1 : Int32)), (bytes "speed", (3 : Int32))]) := rfl
  refine ⟨hGet, ?_⟩
  rw [hGet]
  intro hSame
  cases hSame

end

end XcRos.Libros.ParamContainers
