import XcRos.Foundation.Lines
import XcRos.Foundation.LittleEndian
import XcRos.Foundation.Record
import XcRos.Msg.PyStr

/-! # Python values

The values that generated messages hold. A message is a tree: an object with its attributes in the
order of `__slots__`. A float in the form of a `float32` field is the bits of that single.
-/

namespace XcRos.Genpy

open XcRos.Foundation XcRos.Msg

abbrev Bytes := List UInt8

/-- A character of a `str`, which may be a surrogate. -/
abbrev CodePoint := Fin 0x110000

inductive PyVal where
  | none
  | bool (b : Bool)
  | int (n : Int)
  | single (bits : UInt32)
  | double (bits : UInt64)
  | str (s : List CodePoint)
  | bytes (bs : Bytes)
  | list (vs : List PyVal)
  | tuple (vs : List PyVal)
  /-- An iterator, as `map` returns it in Python 3. -/
  | iterator
  | obj (cls : Str) (attrs : List (Str × PyVal))

/-! ## Attributes -/

abbrev Path := List Str

namespace PyVal

def getattr (name : Str) : PyVal → Option PyVal
  | .obj _ attrs => attrs.lookup name
  | _ => Option.none

/-- The value at the end of a path; `none` is the `AttributeError`. -/
def at? : Path → PyVal → Option PyVal
  | [], v => some v
  | name :: path, v => (v.getattr name).bind (at? path)

def modifyAttr (name : Str) (g : PyVal → Option PyVal) : PyVal → Option PyVal
  | .obj cls attrs => (modifyField name g attrs).map (.obj cls)
  | _ => Option.none

def modify : Path → (PyVal → Option PyVal) → PyVal → Option PyVal
  | [], g => g
  | name :: path, g => modifyAttr name (modify path g)

def set (path : Path) (v : PyVal) : PyVal → Option PyVal := modify path fun _ => some v

variable {f g : PyVal → Option PyVal} {p q : Path}

theorem modifyAttr_modifyAttr (name : Str) (v : PyVal) :
    (v.modifyAttr name f).bind (modifyAttr name g) = v.modifyAttr name fun w => (f w).bind g := by
  cases v with
  | obj cls attrs =>
    simp only [modifyAttr]
    rw [← modifyField_modifyField]
    cases modifyField name f attrs <;> rfl
  | _ => rfl

theorem modifyAttr_comm {name other : Str} (h : name ≠ other) (v : PyVal) :
    (v.modifyAttr name f).bind (modifyAttr other g) = (v.modifyAttr other g).bind (modifyAttr name f) := by
  cases v with
  | obj cls attrs =>
    have hMap (other : Str) (g : PyVal → Option PyVal) (o : Option (List (Str × PyVal))) :
        (o.map (.obj cls)).bind (modifyAttr other g) = (o.bind (modifyField other g)).map (.obj cls) := by
      cases o <;> rfl
    simp only [modifyAttr]
    rw [hMap, hMap, modifyField_comm h]
  | _ => rfl

theorem modify_append (p q : Path) (g : PyVal → Option PyVal) : modify (p ++ q) g = modify p (modify q g) := by
  induction p with
  | nil => rfl
  | cons name p ih => rw [List.cons_append, modify, ih, modify]

theorem modify_modify (p : Path) (v : PyVal) :
    (v.modify p f).bind (modify p g) = v.modify p fun w => (f w).bind g := by
  induction p generalizing v with
  | nil => rfl
  | cons name p ih =>
    simp only [modify]
    rw [modifyAttr_modifyAttr]
    congr 1
    funext w
    exact ih w

def Apart (p q : Path) : Prop := ¬ p <+: q ∧ ¬ q <+: p

theorem Apart.of_cons {name : Str} (h : Apart (name :: p) (name :: q)) : Apart p q :=
  ⟨fun hPath => h.1 (List.cons_prefix_cons.mpr ⟨rfl, hPath⟩), fun hPath => h.2 (List.cons_prefix_cons.mpr ⟨rfl, hPath⟩)⟩

theorem Apart.symm (h : Apart p q) : Apart q p := ⟨h.2, h.1⟩

theorem Apart.cons (name : Str) (h : Apart p q) : Apart (name :: p) (name :: q) :=
  ⟨fun hPath => h.1 (List.cons_prefix_cons.mp hPath).2, fun hPath => h.2 (List.cons_prefix_cons.mp hPath).2⟩

theorem apart_of_ne {name other : Str} (h : name ≠ other) (p q : Path) : Apart (name :: p) (other :: q) :=
  ⟨fun hPath => h (List.cons_prefix_cons.mp hPath).1, fun hPath => h (List.cons_prefix_cons.mp hPath).1.symm⟩

theorem modify_comm (h : Apart p q) (v : PyVal) :
    (v.modify p f).bind (modify q g) = (v.modify q g).bind (modify p f) := by
  induction p generalizing q v with
  | nil => exact absurd List.nil_prefix h.1
  | cons name p ih =>
    cases q with
    | nil => exact absurd List.nil_prefix h.2
    | cons other q =>
      simp only [modify]
      rcases eq_or_ne name other with rfl | hNe
      · rw [modifyAttr_modifyAttr, modifyAttr_modifyAttr]
        congr 1
        funext w
        exact ih h.of_cons w
      · exact modifyAttr_comm hNe v

theorem getattr_modifyAttr {name : Str} {v v' : PyVal} (h : v.modifyAttr name g = some v') :
    ∃ w w', v.getattr name = some w ∧ g w = some w' ∧ v'.getattr name = some w' := by
  cases v with
  | obj cls attrs =>
    obtain ⟨attrs', hAttrs, rfl⟩ := Option.map_eq_some_iff.mp h
    exact lookup_modifyField hAttrs
  | _ => cases h

theorem getattr_modifyAttr_ne {name other : Str} (hNe : name ≠ other) {v v' : PyVal}
    (h : v.modifyAttr name g = some v') : v'.getattr other = v.getattr other := by
  cases v with
  | obj cls attrs =>
    obtain ⟨attrs', hAttrs, rfl⟩ := Option.map_eq_some_iff.mp h
    exact lookup_modifyField_ne hNe hAttrs
  | _ => cases h

theorem at?_append (p q : Path) (v : PyVal) : v.at? (p ++ q) = (v.at? p).bind (at? q) := by
  induction p generalizing v with
  | nil => rfl
  | cons name p ih =>
    rw [List.cons_append, at?, at?, Option.bind_assoc]
    congr 1
    funext w
    exact ih w

theorem at?_modify {v v' : PyVal} (h : v.modify p g = some v') :
    ∃ w w', v.at? p = some w ∧ g w = some w' ∧ v'.at? p = some w' := by
  induction p generalizing v v' with
  | nil => exact ⟨v, v', rfl, h, rfl⟩
  | cons name p ih =>
    obtain ⟨w, w', hOld, hChange, hNew⟩ := getattr_modifyAttr h
    obtain ⟨u, u', hU, hG, hU'⟩ := ih hChange
    refine ⟨u, u', ?_, hG, ?_⟩
    · rw [at?, hOld, Option.bind_some, hU]
    · rw [at?, hNew, Option.bind_some, hU']

theorem at?_modify_apart (hApart : Apart p q) {v v' : PyVal} (h : v.modify p g = some v') : v'.at? q = v.at? q := by
  induction p generalizing q v v' with
  | nil => exact absurd List.nil_prefix hApart.1
  | cons name p ih =>
    cases q with
    | nil => exact absurd List.nil_prefix hApart.2
    | cons other q =>
      obtain ⟨w, w', hOld, hChange, hNew⟩ := getattr_modifyAttr h
      rcases eq_or_ne name other with rfl | hNe
      · rw [at?, at?, hOld, hNew]
        exact ih (Apart.of_cons hApart) hChange
      · rw [at?, at?, getattr_modifyAttr_ne hNe h]

theorem modifyAttr_congr {name : Str} {v w : PyVal} (hOld : v.getattr name = some w) (h : f w = g w) :
    v.modifyAttr name f = v.modifyAttr name g := by
  cases v with
  | obj cls attrs =>
    simp only [modifyAttr]
    rw [modifyField_congr hOld h]
  | _ => rfl

theorem modify_congr {v w : PyVal} (hOld : v.at? p = some w) (h : f w = g w) : v.modify p f = v.modify p g := by
  induction p generalizing v with
  | nil =>
    obtain rfl := Option.some.inj hOld
    exact h
  | cons name p ih =>
    obtain ⟨u, hAttr, hBelow⟩ := Option.bind_eq_some_iff.mp hOld
    exact modifyAttr_congr hAttr (ih hBelow)

theorem modify_isSome {v w w' : PyVal} (hOld : v.at? p = some w) (h : g w = some w') : ∃ v', v.modify p g = some v' := by
  induction p generalizing v with
  | nil =>
    obtain rfl := Option.some.inj hOld
    exact ⟨w', h⟩
  | cons name p ih =>
    obtain ⟨u, hAttr, hBelow⟩ := Option.bind_eq_some_iff.mp hOld
    obtain ⟨u', hu⟩ := ih hBelow
    cases v with
    | obj cls attrs =>
      obtain ⟨attrs', hAttrs⟩ := modifyField_isSome hAttr hu
      exact ⟨.obj cls attrs', by rw [modify, modifyAttr, hAttrs]; rfl⟩
    | _ => cases hAttr

theorem modify_some {v w : PyVal} (hOld : v.at? p = some w) : v.modify p some = some v := by
  induction p generalizing v with
  | nil => rfl
  | cons name p ih =>
    obtain ⟨u, hAttr, hBelow⟩ := Option.bind_eq_some_iff.mp hOld
    rw [modify, modifyAttr_congr hAttr (ih hBelow)]
    cases v with
    | obj cls attrs =>
      have hSame : modifyField name some attrs = some attrs := modifyField_some hAttr
      rw [modifyAttr, hSame]
      rfl
    | _ => cases hAttr

theorem modify_same {v w : PyVal} (hOld : v.at? p = some w) (h : g w = some w) : v.modify p g = some v := by
  rw [modify_congr hOld (g := some) h, modify_some hOld]

theorem modify_eq_set {v w : PyVal} (hOld : v.at? p = some w) : v.modify p g = (g w).bind fun w' => v.modify p fun _ => some w' := by
  cases hNew : g w with
  | none =>
    cases hModify : v.modify p g with
    | none => rfl
    | some v' =>
      obtain ⟨u, u', hU, hGU, _⟩ := at?_modify hModify
      obtain rfl := Option.some.inj (hOld.symm.trans hU)
      rw [hNew] at hGU
      cases hGU
  | some w' => exact modify_congr hOld hNew

/-! ## Equality -/

def singleNaN (bits : UInt32) : Bool := 0x7f800000 < bits &&& 0x7fffffff

def doubleNaN (bits : UInt64) : Bool := 0x7ff0000000000000 < bits &&& 0x7fffffffffffffff

def singleEq (a b : UInt32) : Bool :=
  !singleNaN a && !singleNaN b && (a == b || (a &&& 0x7fffffff == 0 && b &&& 0x7fffffff == 0))

def doubleEq (a b : UInt64) : Bool :=
  !doubleNaN a && !doubleNaN b && (a == b || (a &&& 0x7fffffffffffffff == 0 && b &&& 0x7fffffffffffffff == 0))

mutual

/-- `v == w`. When a message compares its attributes, tuples and lists are equivalent (`loose`). -/
def eqv (loose : Bool) : PyVal → PyVal → Bool
  | .none, .none => true
  | .bool a, .bool b => a == b
  | .bool a, .int n => a.toInt == n
  | .int n, .bool b => n == b.toInt
  | .int m, .int n => m == n
  | .single a, .single b => singleEq a b
  | .double a, .double b => doubleEq a b
  | .str s, .str t => s == t
  | .bytes bs, .bytes cs => bs == cs
  | .list vs, .list ws => eqvEach vs ws
  | .tuple vs, .tuple ws => eqvEach vs ws
  | .list vs, .tuple ws => loose && eqvEach vs ws
  | .tuple vs, .list ws => loose && eqvEach vs ws
  | .obj c as, .obj d bs => c == d && eqvAttrs as bs
  | _, _ => false

def eqvEach : List PyVal → List PyVal → Bool
  | [], [] => true
  | v :: vs, w :: ws => eqv false v w && eqvEach vs ws
  | _, _ => false

/-- `Message.__eq__` behind the test of the class. -/
def eqvAttrs : List (Str × PyVal) → List (Str × PyVal) → Bool
  | [], _ => true
  | (name, v) :: attrs, others =>
    (match others.lookup name with
      | some w => eqv true v w
      | Option.none => false) && eqvAttrs attrs others

end

end PyVal

/-! ## Text -/

def CodePoint.toChar? (c : CodePoint) : Option Char :=
  if h : c.val.isValidChar then some (Char.ofNatAux c.val h) else none

def CodePoint.ofChar (c : Char) : CodePoint := ⟨c.toNat, by
  rcases c.valid with h | h
  · exact Nat.lt_trans h (by decide)
  · exact h.2⟩

/-- `s.encode('utf-8')`; `none` is the `UnicodeEncodeError` for a surrogate. -/
def encodeUtf8 (s : List CodePoint) : Option Bytes :=
  (s.mapM CodePoint.toChar?).map fun cs => cs.flatMap String.utf8EncodeChar

/-- `bs.decode('utf-8')` -/
def decodeUtf8 (bs : Bytes) : Option (List CodePoint) :=
  (ByteArray.utf8Decode? bs.toByteArray).map fun cs => cs.toList.map CodePoint.ofChar

theorem CodePoint.ofChar_of_toChar? {c : CodePoint} {char : Char} (h : c.toChar? = some char) : CodePoint.ofChar char = c := by
  rw [CodePoint.toChar?] at h
  split at h
  · cases h
    rfl
  · cases h

theorem decodeUtf8_encodeUtf8 {s : List CodePoint} {bs : Bytes} (h : encodeUtf8 s = some bs) : decodeUtf8 bs = some s := by
  obtain ⟨cs, hChars, rfl⟩ := Option.map_eq_some_iff.mp h
  have hBack : cs.map CodePoint.ofChar = s := by
    have hEach := mapM_eq_some_iff.mp hChars
    clear h hChars
    induction hEach with
    | nil => rfl
    | cons hHead _ ih => rw [List.map_cons, CodePoint.ofChar_of_toChar? hHead, ih]
  have hBytes : (cs.flatMap String.utf8EncodeChar).toByteArray = cs.utf8Encode := rfl
  rw [decodeUtf8, hBytes, List.utf8Decode?_utf8Encode, Option.map_some, hBack]

end XcRos.Genpy
