import XcRos.Foundation.LittleEndian
import XcRos.Foundation.OrderedAssoc
import XcRos.Foundation.Search

/-! # Connection headers

`Header::write` lays the entries of a map out as lines `key=value`, each behind its length in four bytes, and
`Header::parse` takes such lines apart. The announced size is counted in 32 bits, and every access outside the
allocation is an undefined result.
-/

namespace XcRos.CppCommon

open XcRos.Foundation

abbrev Bytes := List UInt8

/-- `M_string`, a `std::map` -/
structure MString where
  entries : List (Bytes × Bytes)
  sorted : KeysSorted entries

namespace MString

@[ext] theorem ext {m m' : MString} (h : m.entries = m'.entries) : m = m' := by
  cases m
  cases m'
  cases h
  rfl

theorem keysSorted_nil : KeysSorted ([] : List (Bytes × Bytes)) := List.Pairwise.nil

def empty : MString := ⟨[], keysSorted_nil⟩

/-- `(*read_map_)[key] = value` -/
def assign (m : MString) (key value : Bytes) : MString :=
  ⟨insertOrAssign key value m.entries, keysSorted_insertOrAssign key value m.sorted⟩

theorem assign_last {m : MString} {key : Bytes} (value : Bytes) (h : ∀ e ∈ m.entries, e.1 < key) :
    (m.assign key value).entries = m.entries ++ [(key, value)] := insertOrAssign_last value h

end MString

def equals : UInt8 := 61

/-! ## Writing -/

namespace Header

/-- A pointer into an allocation: what stands in front of it, and the room that is left behind it. -/
structure Ptr where
  written : Bytes
  room : Nat
deriving DecidableEq

def Ptr.put (data : Bytes) (ptr : Ptr) : Option Ptr :=
  if data.length ≤ ptr.room then some ⟨ptr.written ++ data, ptr.room - data.length⟩ else none

/-- The first loop of `write`. -/
def size (keyVals : List (Bytes × Bytes)) : UInt32 :=
  keyVals.foldl (fun size it => size + .ofNat it.1.length + .ofNat it.2.length + 1 + 4) 0

def writeEntry (it : Bytes × Bytes) (ptr : Ptr) : Option Ptr :=
  let len : UInt32 := .ofNat (it.1.length + it.2.length + 1)
  (ptr.put (le 4 len.toNat)).bind fun ptr => (ptr.put it.1).bind fun ptr =>
    (ptr.put [equals]).bind fun ptr => ptr.put it.2

/-- The second loop of `write`. -/
def writeEntries : List (Bytes × Bytes) → Ptr → Option Ptr
  | [], ptr => some ptr
  | it :: keyVals, ptr => (writeEntry it ptr).bind (writeEntries keyVals)

/-- The buffer and its announced size, unless a write ends behind the allocation or the assertion at the end
fails. -/
def write (keyVals : MString) : Option (Bytes × UInt32) :=
  let size := size keyVals.entries
  if size = 0 then some ([], 0)
  else (writeEntries keyVals.entries ⟨[], size.toNat⟩).bind fun ptr =>
    if ptr.room = 0 then some (ptr.written, size) else none

/-! ## Parsing -/

def invalidLength : String :=
  "Received an invalid TCPROS header.  Each element must be prepended by a 4-byte length."

def noEqualsSign : String := "Received an invalid TCPROS header.  Each line must have an equals sign."

inductive Parsed where
  | success (readMap : MString) (buf : Nat)
  | failure (errorMsg : String) (readMap : MString)
  | outOfBounds

/-- The loop of `parse`, with `buf` counted from the front of the buffer. -/
def parseFrom (buffer : Bytes) (size buf : Nat) (readMap : MString) : Parsed :=
  if buf < size then
    if buffer.length < buf + 4 then .outOfBounds
    else
      let len := ofLe ((buffer.drop buf).take 4)
      if 1000000 < len then .failure invalidLength readMap
      else if buffer.length < buf + 4 + len then .outOfBounds
      else
        let line := (buffer.drop (buf + 4)).take len
        match indexOf [equals] line with
        | none => .failure noEqualsSign readMap
        | some eqpos =>
          parseFrom buffer size (buf + 4 + len) (readMap.assign (line.take eqpos) (line.drop (eqpos + 1)))
  else .success readMap buf
termination_by size - buf
decreasing_by omega

def parse (buffer : Bytes) (size : UInt32) : Parsed := parseFrom buffer size.toNat 0 MString.empty

/-! ## What is written -/

def line (it : Bytes × Bytes) : Bytes := it.1 ++ equals :: it.2

theorem length_line (it : Bytes × Bytes) : (line it).length = it.1.length + it.2.length + 1 := by
  rw [line, List.length_append, List.length_cons, Nat.add_assoc]

def encoded (it : Bytes × Bytes) : Bytes := le 4 (line it).length ++ line it

theorem length_encoded (it : Bytes × Bytes) : (encoded it).length = it.1.length + it.2.length + 5 := by
  rw [encoded, List.length_append, length_le, length_line]
  omega

def total (keyVals : List (Bytes × Bytes)) : Nat := (keyVals.map fun it => it.1.length + it.2.length + 5).sum

theorem total_cons (it : Bytes × Bytes) (keyVals : List (Bytes × Bytes)) :
    total (it :: keyVals) = it.1.length + it.2.length + 5 + total keyVals := by
  rw [total, List.map_cons, List.sum_cons, ← total]

theorem length_flatMap_encoded (keyVals : List (Bytes × Bytes)) :
    (keyVals.flatMap encoded).length = total keyVals := by
  induction keyVals with
  | nil => rfl
  | cons it keyVals ih => rw [List.flatMap_cons, List.length_append, length_encoded, ih, total_cons]

theorem foldl_size (keyVals : List (Bytes × Bytes)) (start : Nat) :
    keyVals.foldl (fun size it => size + .ofNat it.1.length + .ofNat it.2.length + 1 + 4) (UInt32.ofNat start) =
      .ofNat (start + total keyVals) := by
  induction keyVals generalizing start with
  | nil => rfl
  | cons it keyVals ih =>
    have hStep : UInt32.ofNat start + .ofNat it.1.length + .ofNat it.2.length + 1 + 4 =
        .ofNat (start + (it.1.length + it.2.length + 5)) := by
      simp only [UInt32.ofNat_add]
      apply UInt32.toNat_inj.mp
      simp only [UInt32.toNat_add, UInt32.toNat_ofNat', UInt32.reduceToNat]
      omega
    rw [List.foldl_cons, hStep, ih, total_cons, Nat.add_assoc]

theorem size_eq (keyVals : List (Bytes × Bytes)) : size keyVals = .ofNat (total keyVals) := by
  rw [size, ← Nat.zero_add (total keyVals)]
  exact foldl_size keyVals 0

theorem Ptr.put_put (front back : Bytes) (ptr : Ptr) :
    (ptr.put front).bind (Ptr.put back) = ptr.put (front ++ back) := by
  unfold Ptr.put
  rw [List.length_append]
  split
  · rw [Option.bind_some, List.append_assoc]
    by_cases hBack : back.length ≤ ptr.room - front.length
    · rw [if_pos hBack, if_pos (by omega), Nat.sub_sub]
    · rw [if_neg hBack, if_neg (by omega)]
  · rw [Option.bind_none, if_neg (by omega)]

theorem Ptr.put_nil (ptr : Ptr) : ptr.put [] = some ptr := by
  simp [Ptr.put]

theorem writeEntry_eq {it : Bytes × Bytes} (hLine : (line it).length < 2 ^ 32) (ptr : Ptr) :
    writeEntry it ptr = ptr.put (encoded it) := by
  have hLen : (UInt32.ofNat (it.1.length + it.2.length + 1)).toNat = (line it).length := by
    rw [length_line] at hLine ⊢
    exact UInt32.toNat_ofNat_of_lt' hLine
  calc writeEntry it ptr
      = (ptr.put (le 4 (line it).length)).bind fun ptr => (ptr.put it.1).bind fun ptr =>
          (ptr.put [equals]).bind (Ptr.put it.2) := by rw [writeEntry, hLen]
    _ = (ptr.put (le 4 (line it).length)).bind (Ptr.put (line it)) := by
        congr 1
        funext ptr
        have hTail (ptr : Ptr) : (ptr.put [equals]).bind (Ptr.put it.2) = ptr.put ([equals] ++ it.2) :=
          Ptr.put_put _ _ ptr
        simp only [hTail]
        exact Ptr.put_put _ _ ptr
    _ = ptr.put (encoded it) := Ptr.put_put _ _ ptr

theorem writeEntries_eq {keyVals : List (Bytes × Bytes)} (hLines : ∀ it ∈ keyVals, (line it).length < 2 ^ 32)
    (ptr : Ptr) : writeEntries keyVals ptr = ptr.put (keyVals.flatMap encoded) := by
  induction keyVals generalizing ptr with
  | nil => exact (Ptr.put_nil ptr).symm
  | cons it keyVals ih =>
    have hRest : writeEntries keyVals = Ptr.put (keyVals.flatMap encoded) :=
      funext (ih fun e he => hLines e (List.mem_cons_of_mem it he))
    rw [writeEntries, writeEntry_eq (hLines it List.mem_cons_self), hRest, Ptr.put_put, List.flatMap_cons]

theorem write_of_total_lt {keyVals : MString} (hLines : ∀ it ∈ keyVals.entries, (line it).length < 2 ^ 32)
    (hTotal : total keyVals.entries < 2 ^ 32) :
    write keyVals = some (keyVals.entries.flatMap encoded, .ofNat (total keyVals.entries)) := by
  have hToNat : (UInt32.ofNat (total keyVals.entries)).toNat = total keyVals.entries :=
    UInt32.toNat_ofNat_of_lt' hTotal
  rw [write, size_eq]
  split
  · rename_i hZero
    have hNone : total keyVals.entries = 0 := by rw [← hToNat, hZero]; rfl
    have hNil : (keyVals.entries.flatMap encoded) = [] := by
      apply List.eq_nil_of_length_eq_zero
      rw [length_flatMap_encoded, hNone]
    rw [hNil, hZero]
  · have hPut : Ptr.put (keyVals.entries.flatMap encoded) ⟨[], total keyVals.entries⟩ =
        some ⟨keyVals.entries.flatMap encoded, 0⟩ := by
      rw [Ptr.put, length_flatMap_encoded, if_pos (Nat.le_refl _), Nat.sub_self, List.nil_append]
    rw [writeEntries_eq hLines, hToNat, hPut, Option.bind_some, if_pos rfl]

theorem write_of_le_total {keyVals : MString} (hLines : ∀ it ∈ keyVals.entries, (line it).length < 2 ^ 32)
    (hTotal : 2 ^ 32 ≤ total keyVals.entries) {buffer : Bytes} {size : UInt32}
    (h : write keyVals = some (buffer, size)) : buffer = [] ∧ size = 0 := by
  rw [write, size_eq] at h
  split at h
  · cases h
    exact ⟨rfl, rfl⟩
  · have hRoom : ¬ total keyVals.entries ≤ (UInt32.ofNat (total keyVals.entries)).toNat := by
      have hLt := (UInt32.ofNat (total keyVals.entries)).toNat_lt
      omega
    rw [writeEntries_eq hLines, Ptr.put, length_flatMap_encoded, if_neg hRoom] at h
    cases h

/-! ## What is parsed -/

theorem take_drop_of_drop {front back rest : Bytes} {buffer : Bytes} {buf : Nat}
    (h : buffer.drop buf = front ++ (back ++ rest)) :
    (buffer.drop buf).take front.length = front ∧ (buffer.drop (buf + front.length)).take back.length = back ∧
      buffer.drop (buf + front.length + back.length) = rest ∧
      buffer.length - buf = front.length + back.length + rest.length := by
  refine ⟨by rw [h, List.take_left], ?_, ?_, ?_⟩
  · rw [← List.drop_drop, h, List.drop_left, List.take_left]
  · rw [← List.drop_drop, ← List.drop_drop, h, List.drop_left, List.drop_left]
  · rw [← List.length_drop, h, List.length_append, List.length_append, Nat.add_assoc]

theorem parseFrom_line {it : Bytes × Bytes} (hKey : equals ∉ it.1) (hLine : (line it).length ≤ 1000000)
    {buffer rest : Bytes} {buf : Nat} (hDrop : buffer.drop buf = encoded it ++ rest) (readMap : MString) :
    parseFrom buffer buffer.length buf readMap =
      parseFrom buffer buffer.length (buf + (encoded it).length) (readMap.assign it.1 it.2) := by
  rw [encoded, List.append_assoc] at hDrop
  obtain ⟨hLen, hBody, -, hLength⟩ := take_drop_of_drop hDrop
  rw [length_le] at hLen hBody hLength
  have hNumber : ofLe (le 4 (line it).length) = (line it).length := ofLe_le (by omega)
  have hSplit : indexOf [equals] (line it) = some it.1.length := indexOf_first hKey it.2
  have hTake : (line it).take it.1.length = it.1 := List.take_left
  have hValue : (line it).drop (it.1.length + 1) = it.2 := by
    rw [line, ← List.drop_drop, List.drop_left, List.drop_one, List.tail_cons]
  conv_lhs => rw [parseFrom]
  rw [if_pos (by omega), if_neg (by omega)]
  simp only [hLen, hNumber]
  rw [if_neg (by omega), if_neg (by omega)]
  simp only [hBody, hSplit, hTake, hValue]
  rw [encoded, List.length_append, length_le, Nat.add_assoc]

theorem parseFrom_lines {rest : List (Bytes × Bytes)} (hKeys : ∀ it ∈ rest, equals ∉ it.1)
    (hLines : ∀ it ∈ rest, (line it).length ≤ 1000000) {buffer : Bytes} {buf : Nat}
    (hDrop : buffer.drop buf = rest.flatMap encoded) (hBuf : buf ≤ buffer.length) {readMap : MString}
    (hSorted : KeysSorted (readMap.entries ++ rest)) :
    ∃ readMap', parseFrom buffer buffer.length buf readMap = .success readMap' buffer.length ∧
      readMap'.entries = readMap.entries ++ rest := by
  induction rest generalizing buf readMap with
  | nil =>
    have hEnd : buf = buffer.length := Nat.le_antisymm hBuf (List.drop_eq_nil_iff.mp hDrop)
    refine ⟨readMap, ?_, (List.append_nil _).symm⟩
    rw [parseFrom, if_neg (by omega), hEnd]
  | cons it rest ih =>
    rw [List.flatMap_cons] at hDrop
    have hBefore : ∀ e ∈ readMap.entries, e.1 < it.1 := fun e he =>
      (List.pairwise_append.mp hSorted).2.2 e he it List.mem_cons_self
    have hEntries := MString.assign_last it.2 hBefore
    have hBehind : buffer.drop (buf + (encoded it).length) = rest.flatMap encoded := by
      rw [← List.drop_drop, hDrop, List.drop_left]
    have hLength := congrArg List.length hDrop
    rw [List.length_drop, List.length_append] at hLength
    have hNext : KeysSorted ((readMap.assign it.1 it.2).entries ++ rest) := by
      rw [hEntries, List.append_assoc]
      exact hSorted
    obtain ⟨readMap', hParse, hEq⟩ := ih (fun e he => hKeys e (List.mem_cons_of_mem it he))
      (fun e he => hLines e (List.mem_cons_of_mem it he)) hBehind (by omega) hNext
    refine ⟨readMap', ?_, ?_⟩
    · rw [parseFrom_line (hKeys it List.mem_cons_self) (hLines it List.mem_cons_self) hDrop, hParse]
    · rw [hEq, hEntries, List.append_assoc]
      rfl

theorem parse_lines {keyVals : MString} (hKeys : ∀ it ∈ keyVals.entries, equals ∉ it.1)
    (hLines : ∀ it ∈ keyVals.entries, (line it).length ≤ 1000000) (hTotal : total keyVals.entries < 2 ^ 32) :
    parse (keyVals.entries.flatMap encoded) (.ofNat (total keyVals.entries)) =
      .success keyVals (total keyVals.entries) := by
  have hLength := length_flatMap_encoded keyVals.entries
  have hToNat : (UInt32.ofNat (total keyVals.entries)).toNat = (keyVals.entries.flatMap encoded).length := by
    rw [hLength]
    exact UInt32.toNat_ofNat_of_lt' hTotal
  have hStart : (keyVals.entries.flatMap encoded).drop 0 = keyVals.entries.flatMap encoded := rfl
  obtain ⟨readMap, hParse, hEq⟩ := @parseFrom_lines _ hKeys hLines _ 0 hStart (Nat.zero_le _) MString.empty
    keyVals.sorted
  rw [parse, hToNat, hParse, hLength, MString.ext hEq]

/-! ## The round trip -/

/-- The header is written to a buffer of the announced size, `parse` takes all of it and finds the map again, and
what is parsed is written as the same buffer. -/
def RoundTrips (keyVals : MString) : Prop :=
  ∃ buffer size, write keyVals = some (buffer, size) ∧ buffer.length = size.toNat ∧
    ∃ readMap, parse buffer size = .success readMap size.toNat ∧ readMap = keyVals ∧
      write readMap = some (buffer, size)

theorem parse_empty : parse [] 0 = .success MString.empty 0 := by
  rw [parse, parseFrom]
  rfl

theorem not_roundTrips_of_le_total {keyVals : MString}
    (hLines : ∀ it ∈ keyVals.entries, it.1.length + it.2.length + 1 ≤ 1000000)
    (hTotal : 2 ^ 32 ≤ total keyVals.entries) : ¬ RoundTrips keyVals := by
  rintro ⟨buffer, size, hWrite, -, readMap, hParse, rfl, -⟩
  have hWord : ∀ it ∈ readMap.entries, (line it).length < 2 ^ 32 := fun it h =>
    Nat.lt_of_le_of_lt (length_line it ▸ hLines it h) (by decide)
  obtain ⟨rfl, rfl⟩ := write_of_le_total hWord hTotal hWrite
  rw [parse_empty] at hParse
  cases hParse
  exact absurd hTotal (by decide)

theorem roundTrips_of_total_lt {keyVals : MString} (hKeys : ∀ it ∈ keyVals.entries, equals ∉ it.1)
    (hLines : ∀ it ∈ keyVals.entries, it.1.length + it.2.length + 1 ≤ 1000000)
    (hTotal : total keyVals.entries < 2 ^ 32) : RoundTrips keyVals := by
  have hLine : ∀ it ∈ keyVals.entries, (line it).length ≤ 1000000 := fun it h => length_line it ▸ hLines it h
  have hWrite := write_of_total_lt (fun it h => Nat.lt_of_le_of_lt (hLine it h) (by decide)) hTotal
  have hToNat : (UInt32.ofNat (total keyVals.entries)).toNat = total keyVals.entries :=
    UInt32.toNat_ofNat_of_lt' hTotal
  refine ⟨_, _, hWrite, ?_, keyVals, ?_, rfl, hWrite⟩
  · rw [length_flatMap_encoded, hToNat]
  · rw [parse_lines hKeys hLine hTotal, hToNat]

theorem roundTrips_iff (keyVals : MString) (hKeys : ∀ it ∈ keyVals.entries, equals ∉ it.1)
    (hLines : ∀ it ∈ keyVals.entries, it.1.length + it.2.length + 1 ≤ 1000000) :
    RoundTrips keyVals ↔ total keyVals.entries < 2 ^ 32 := by
  constructor
  · intro h
    by_contra hTotal
    exact not_roundTrips_of_le_total hLines (Nat.le_of_not_lt hTotal) h
  · exact roundTrips_of_total_lt hKeys hLines

def sample : MString := (MString.empty.assign [100] []).assign [99] [equals, 0]

theorem roundTrips_iff_sample : RoundTrips sample ↔ total sample.entries < 2 ^ 32 :=
  roundTrips_iff sample (by decide) (by decide)

/-! ## A map of more than four gigabytes -/

theorem replicate_lt_replicate (b : UInt8) {n m : Nat} (h : n < m) : List.replicate n b < List.replicate m b := by
  induction n generalizing m with
  | zero =>
    obtain ⟨m, rfl⟩ := Nat.exists_eq_add_of_lt h
    exact List.Lex.nil
  | succ n ih =>
    obtain ⟨m, rfl⟩ := Nat.exists_eq_add_of_lt h
    exact List.Lex.cons (ih (by omega))

def longLine (n : Nat) : Bytes × Bytes := (List.replicate (n + 1) 97, List.replicate (999998 - n) 0)

theorem keysSorted_longLine (count : Nat) : KeysSorted ((List.range count).map longLine) := by
  rw [KeysSorted, List.pairwise_map]
  exact List.pairwise_lt_range.imp fun h => replicate_lt_replicate 97 (Nat.succ_lt_succ h)

def longLines (count : Nat) : MString := ⟨(List.range count).map longLine, keysSorted_longLine count⟩

theorem longLine_length {n : Nat} (h : n < 4295) : (longLine n).1.length + (longLine n).2.length + 1 = 1000000 := by
  rw [longLine, List.length_replicate, List.length_replicate]
  omega

theorem total_longLines {count : Nat} (h : count ≤ 4295) : total (longLines count).entries = count * 1000004 := by
  induction count with
  | zero => rfl
  | succ count ih =>
    have hLast := longLine_length h
    have hAppend : (longLines (count + 1)).entries = (longLines count).entries ++ [longLine count] := by
      change (List.range (count + 1)).map longLine = _
      rw [List.range_succ, List.map_append]
      rfl
    rw [hAppend, total, List.map_append, List.sum_append, ← total, ih (by omega)]
    simp only [List.map_cons, List.map_nil, List.sum_cons, List.sum_nil]
    omega

theorem longLines_entries {count : Nat} (h : count ≤ 4295) : ∀ it ∈ (longLines count).entries,
    it.1 ≠ [] ∧ equals ∉ it.1 ∧ it.1.length + it.2.length + 1 ≤ 1000000 := by
  intro it hMem
  obtain ⟨n, hn, rfl⟩ := List.mem_map.mp hMem
  refine ⟨List.cons_ne_nil _ _, ?_, (longLine_length (Nat.lt_of_lt_of_le (List.mem_range.mp hn) h)).le⟩
  intro hEquals
  exact absurd (List.eq_of_mem_replicate hEquals) (by decide)

theorem roundTrips_longLines :
    (∀ it ∈ (longLines 4295).entries, it.1 ≠ [] ∧ equals ∉ it.1 ∧ it.1.length + it.2.length + 1 ≤ 1000000) ∧
      ¬ RoundTrips (longLines 4295) := by
  have hEach := longLines_entries (Nat.le_refl 4295)
  have hTotal := total_longLines (Nat.le_refl 4295)
  refine ⟨hEach, not_roundTrips_of_le_total (fun it h => (hEach it h).2.2) ?_⟩
  rw [hTotal]
  decide

end Header

end XcRos.CppCommon
