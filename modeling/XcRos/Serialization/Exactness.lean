import XcRos.Serialization.Message

/-! # What is read from arbitrary bytes

`deserialize` on a buffer that no serializer has written. The counts of vectors are multiplied by
the size of an element in 32 bits, so that a vector may get more elements than there are bytes for.
-/

namespace XcRos.Serialization

open XcRos.Foundation

/-! ## Bytes of a value -/

def EncodesEach {α : Type} (encodes : α → Bytes → Prop) : List α → Bytes → Prop
  | [], bs => bs = []
  | a :: as, bs => ∃ front block, bs = front ++ block ∧ encodes a front ∧ EncodesEach encodes as block

mutual

/-- The bytes stand for the value, where `true` may be any byte but `0`. -/
def Ty.Encodes : (t : Ty) → t.Val → Bytes → Prop
  | .simple p => fun v bs => bs = p.memory v
  | .bool => fun v bs => ∃ b : UInt8, bs = [b] ∧ v = decide (b ≠ 0)
  | .string => fun str bs => str.length < 4294967296 ∧ bs = le 4 str.length ++ str
  | .array t _ => fun v bs => EncodesEach t.Encodes v.toList bs
  | .vector t => fun v bs =>
    v.length < 4294967296 ∧ ∃ block, bs = le 4 v.length ++ block ∧ EncodesEach t.Encodes v block
  | .message fields => fields.Encodes

def Fields.Encodes : (fields : Fields) → fields.Val → Bytes → Prop
  | .nil => fun _ bs => bs = []
  | .cons t fields => fun v bs => ∃ front rest, bs = front ++ rest ∧ t.Encodes v.1 front ∧ fields.Encodes v.2 rest

end

/-- Whatever is read is what its bytes stand for, and it is written as such. -/
def Ty.ReadsExactly (t : Ty) (s : Bytes) : Prop :=
  ∀ v rest, t.read s = some (v, rest) →
    ∃ consumed, s = consumed ++ rest ∧ t.Encodes v consumed ∧
      t.write v ⟨[], consumed.length⟩ = some ⟨t.encoding v, 0⟩

/-! ## Sizes in a buffer -/

def skip (n : Nat) (s : Bytes) : Option Bytes := if n ≤ s.length then some (s.drop n) else none

def scanEach (scan : Bytes → Option (Bool × Bytes)) : Nat → Bytes → Option (Bool × Bytes)
  | 0, s => some (true, s)
  | n + 1, s => (scan s).bind fun (fits, s) => (scanEach scan n s).map fun (rest, s) => (fits && rest, s)

def VectorSerializer.scan : Ty → (Bytes → Option (Bool × Bytes)) → Bytes → Option (Bool × Bytes)
  | .simple p, _, s =>
    (readUInt32 s).bind fun (len, s) =>
      (skip (UInt32.ofNat p.size * len).toNat s).map fun s => (decide (p.size * len.toNat < 4294967296), s)
  | _, next, s => (readUInt32 s).bind fun (len, s) => scanEach next len.toNat s

def ArraySerializer.scan : Ty → Nat → (Bytes → Option (Bool × Bytes)) → Bytes → Option (Bool × Bytes)
  | .simple p, n, _, s =>
    if n = 0 then none
    else (skip (UInt32.ofNat (n * p.size)).toNat s).map fun s => (decide (n * p.size < 4294967296), s)
  | _, n, next, s => scanEach next n s

mutual

/-- Goes over a buffer as `deserialize` does, without the values. The answer is whether the vectors and arrays of
simple elements on the way have a size of 32 bits. -/
def Ty.scan : (t : Ty) → Bytes → Option (Bool × Bytes)
  | .simple p => fun s => (skip p.size s).map (true, ·)
  | .bool => fun s => (skip 1 s).map (true, ·)
  | .string => fun s => (readUInt32 s).bind fun (len, s) => (skip len.toNat s).map (true, ·)
  | .array t n => ArraySerializer.scan t n t.scan
  | .vector t => VectorSerializer.scan t t.scan
  | .message fields => fields.scan

def Fields.scan : (fields : Fields) → Bytes → Option (Bool × Bytes)
  | .nil => fun s => some (true, s)
  | .cons t fields => fun s =>
    (t.scan s).bind fun (fits, s) => (fields.scan s).map fun (rest, s) => (fits && rest, s)

end

/-! ## Lengths -/

theorem length_of_encodesEach {α : Type} {encodes : α → Bytes → Prop} {enc : α → Bytes} {as : List α} {bs : Bytes}
    (h : ∀ a ∈ as, ∀ bs, encodes a bs → bs.length = (enc a).length) (hEach : EncodesEach encodes as bs) :
    bs.length = (as.flatMap enc).length := by
  induction as generalizing bs with
  | nil => rw [hEach, List.flatMap_nil]
  | cons a as ih =>
    obtain ⟨front, block, rfl, hFront, hBlock⟩ := hEach
    rw [List.flatMap_cons, List.length_append, List.length_append, h a List.mem_cons_self front hFront,
      ih (fun b hb => h b (List.mem_cons_of_mem a hb)) hBlock]

mutual

theorem Ty.length_of_encodes : (t : Ty) → (v : t.Val) → (bs : Bytes) → t.Encodes v bs →
    bs.length = (t.encoding v).length
  | .simple _, _, _, h => congrArg List.length h
  | .bool, _, _, ⟨_, hByte, _⟩ => by
    rw [hByte]
    rfl
  | .string, _, _, h => congrArg List.length h.2
  | .array t _, _, _, h => length_of_encodesEach (fun a _ bs => t.length_of_encodes a bs) h
  | .vector t, v, bs, ⟨_, block, hBytes, hBlock⟩ => by
    have hLength := length_of_encodesEach (fun a _ bs => t.length_of_encodes a bs) hBlock
    rw [hBytes, List.length_append, hLength, Ty.encoding, List.length_append]
  | .message fields, v, bs, h => fields.length_of_encodes v bs h

theorem Fields.length_of_encodes : (fields : Fields) → (v : fields.Val) → (bs : Bytes) → fields.Encodes v bs →
    bs.length = (fields.encoding v).length
  | .nil, _, _, h => congrArg List.length h
  | .cons t fields, v, bs, ⟨front, rest, hBytes, hFront, hRest⟩ => by
    rw [hBytes, List.length_append, t.length_of_encodes v.1 front hFront, fields.length_of_encodes v.2 rest hRest,
      Fields.encoding, List.length_append]

end

/-! ## Pieces of a buffer -/

theorem advance_eq_some {n : Nat} {s bs rest : Bytes} (h : advance n s = some (bs, rest)) :
    s = bs ++ rest ∧ bs.length = n ∧ skip n s = some rest := by
  rw [advance] at h
  split at h
  · rename_i hLength
    cases h
    exact ⟨(List.take_append_drop n s).symm, List.length_take_of_le hLength, if_pos hLength⟩
  · cases h

theorem advance_of_skip {n : Nat} {s rest : Bytes} (h : skip n s = some rest) :
    ∃ bs, advance n s = some (bs, rest) := by
  rw [skip] at h
  split at h
  · rename_i hLength
    cases h
    exact ⟨_, if_pos hLength⟩
  · cases h

theorem le_word {bs : Bytes} (h : bs.length = 4) : le 4 (UInt32.ofNat (ofLe bs)).toNat = bs := by
  have hWord := le_mod 4 (ofLe bs)
  have hBytes := le_ofLe bs
  rw [h] at hBytes
  rw [UInt32.toNat_ofNat']
  exact hWord.trans hBytes

theorem readUInt32_eq_some {s rest : Bytes} {len : UInt32} (h : readUInt32 s = some (len, rest)) :
    s = le 4 len.toNat ++ rest := by
  obtain ⟨⟨bs, s'⟩, hAdvance, hEq⟩ := Option.map_eq_some_iff.mp h
  obtain ⟨hSplit, hLength, _⟩ := advance_eq_some hAdvance
  cases hEq
  rw [hSplit, le_word hLength]

theorem readUInt32_of_skip {s rest : Bytes} (h : skip 4 s = some rest) : ∃ len, readUInt32 s = some (len, rest) := by
  obtain ⟨bs, hAdvance⟩ := advance_of_skip h
  exact ⟨_, by rw [readUInt32, hAdvance, Option.map_some]⟩

theorem skip_append (bs rest : Bytes) : skip bs.length (bs ++ rest) = some rest := by
  rw [skip, if_pos (by rw [List.length_append]; exact Nat.le_add_right _ _), List.drop_left]

theorem skip_skip {m n : Nat} {s rest : Bytes} (h : skip (m + n) s = some rest) :
    ∃ between, skip m s = some between ∧ skip n between = some rest := by
  rw [skip] at h
  split at h
  · cases h
    refine ⟨s.drop m, if_pos (by omega), ?_⟩
    rw [skip, if_pos (by rw [List.length_drop]; omega), List.drop_drop]
  · cases h

/-! ## Simple types -/

theorem Simple.memory_ofMemory (p : Simple) {bs : Bytes} (h : bs.length = p.size) : p.memory (p.ofMemory bs) = bs := by
  cases p with
  | prim p =>
    have hBytes := le_ofLe bs
    rw [h] at hBytes
    have hPower : 2 ^ (8 * p.size) = 256 ^ p.size := Nat.pow_mul 2 8 p.size
    rw [Simple.ofMemory, Simple.memory, BitVec.toNat_ofNat, hPower, le_mod]
    exact hBytes
  | time =>
    have hSize : bs.length = 8 := h
    rw [Simple.ofMemory, Simple.memory, le_word (by rw [List.length_take, hSize]; rfl),
      le_word (by rw [List.length_drop, hSize]), List.take_append_drop]
  | duration =>
    have hSize : bs.length = 8 := h
    rw [Simple.ofMemory, Simple.memory, UInt32.toUInt32_toInt32, UInt32.toUInt32_toInt32,
      le_word (by rw [List.length_take, hSize]; rfl), le_word (by rw [List.length_drop, hSize]),
      List.take_append_drop]

theorem Simple.memory_ofBlock (p : Simple) {n : Nat} {bs : Bytes} (h : bs.length = n * p.size) :
    (p.ofBlock n bs).toList.flatMap p.memory = bs := by
  induction n generalizing bs with
  | zero =>
    rw [Nat.zero_mul] at h
    rw [List.eq_nil_of_length_eq_zero h]
    rfl
  | succ n ih =>
    rw [Nat.succ_mul] at h
    rw [Simple.ofBlock, List.Vector.toList_cons, List.flatMap_cons,
      p.memory_ofMemory (by rw [List.length_take]; omega), ih (by rw [List.length_drop]; omega),
      List.take_append_drop]

theorem Simple.read_eq_some (p : Simple) {s rest : Bytes} {v : p.Val} (h : p.read s = some (v, rest)) :
    s = p.memory v ++ rest := by
  cases p with
  | prim p =>
    obtain ⟨⟨bs, s'⟩, hAdvance, hEq⟩ := Option.map_eq_some_iff.mp h
    obtain ⟨hSplit, hLength, _⟩ := advance_eq_some hAdvance
    cases hEq
    have hMemory := (Simple.prim p).memory_ofMemory hLength
    rw [hSplit]
    exact congrArg (· ++ rest) hMemory.symm
  | time =>
    obtain ⟨⟨sec, s'⟩, hSec, hRest⟩ := Option.bind_eq_some_iff.mp h
    obtain ⟨⟨nsec, s''⟩, hNsec, hEq⟩ := Option.map_eq_some_iff.mp hRest
    cases hEq
    rw [readUInt32_eq_some hSec, readUInt32_eq_some hNsec, Simple.memory, List.append_assoc]
  | duration =>
    obtain ⟨⟨sec, s'⟩, hSec, hRest⟩ := Option.bind_eq_some_iff.mp h
    obtain ⟨⟨nsec, s''⟩, hNsec, hEq⟩ := Option.map_eq_some_iff.mp hRest
    cases hEq
    rw [readUInt32_eq_some hSec, readUInt32_eq_some hNsec, Simple.memory, UInt32.toUInt32_toInt32,
      UInt32.toUInt32_toInt32, List.append_assoc]

theorem Simple.read_of_skip (p : Simple) {s rest : Bytes} (h : skip p.size s = some rest) :
    ∃ v, p.read s = some (v, rest) := by
  cases p with
  | prim p =>
    obtain ⟨bs, hAdvance⟩ := advance_of_skip h
    exact ⟨_, congrArg (Option.map _) hAdvance⟩
  | time =>
    obtain ⟨between, hFirst, hSecond⟩ := skip_skip (m := 4) (n := 4) h
    obtain ⟨sec, hSec⟩ := readUInt32_of_skip hFirst
    obtain ⟨nsec, hNsec⟩ := readUInt32_of_skip hSecond
    exact ⟨⟨sec, nsec⟩, by simp only [Simple.read, hSec, Option.bind_some, hNsec, Option.map_some]⟩
  | duration =>
    obtain ⟨between, hFirst, hSecond⟩ := skip_skip (m := 4) (n := 4) h
    obtain ⟨sec, hSec⟩ := readUInt32_of_skip hFirst
    obtain ⟨nsec, hNsec⟩ := readUInt32_of_skip hSecond
    exact ⟨⟨sec.toInt32, nsec.toInt32⟩, by simp only [Simple.read, hSec, Option.bind_some, hNsec, Option.map_some]⟩

/-! ## Reading and going over -/

/-- What was read with a size of 32 bits is what its bytes stand for; otherwise there are too few of them. -/
def Accounts {α : Type} (scan : Bytes → Option (Bool × Bytes)) (encodes : α → Bytes → Prop) (enc : α → Bytes)
    (a : α) (s rest : Bytes) : Prop :=
  ∃ consumed fits, s = consumed ++ rest ∧ scan s = some (fits, rest) ∧ consumed.length ≤ (enc a).length ∧
    (fits = true → encodes a consumed) ∧ (fits = false → consumed.length < (enc a).length)

theorem Accounts.each {α : Type} {read : Reader UInt8 α} {scan : Bytes → Option (Bool × Bytes)}
    {encodes : α → Bytes → Prop} {enc : α → Bytes}
    (h : ∀ s a rest, read s = some (a, rest) → Accounts scan encodes enc a s rest) {n : Nat} {s rest : Bytes}
    {as : List.Vector α n} (hRead : readEach read n s = some (as, rest)) :
    Accounts (scanEach scan n) (EncodesEach encodes) (List.flatMap enc) as.toList s rest := by
  induction n generalizing s with
  | zero =>
    rw [readEach, Option.some.injEq, Prod.mk.injEq] at hRead
    obtain ⟨rfl, rfl⟩ := hRead
    exact ⟨[], true, rfl, rfl, Nat.zero_le _, fun _ => rfl, (fun h => by cases h)⟩
  | succ n ih =>
    obtain ⟨⟨a, between⟩, hHead, hTail⟩ := Option.bind_eq_some_iff.mp hRead
    obtain ⟨⟨as', s'⟩, hRest, hEq⟩ := Option.map_eq_some_iff.mp hTail
    cases hEq
    obtain ⟨front, fits, hFront, hScan, hLe, hExact, hShort⟩ := h s a between hHead
    obtain ⟨block, fitsRest, hBlock, hScanRest, hLeRest, hExactRest, hShortRest⟩ := ih hRest
    refine ⟨front ++ block, fits && fitsRest, ?_, ?_, ?_, ?_, ?_⟩
    · rw [hFront, hBlock, List.append_assoc]
    · simp only [scanEach, hScan, Option.bind_some, hScanRest, Option.map_some]
    · rw [List.Vector.toList_cons, List.flatMap_cons, List.length_append, List.length_append]
      omega
    · intro hBoth
      obtain ⟨hFits, hFitsRest⟩ := Bool.and_eq_true_iff.mp hBoth
      rw [List.Vector.toList_cons]
      exact ⟨front, block, rfl, hExact hFits, hExactRest hFitsRest⟩
    · intro hOne
      rw [List.Vector.toList_cons, List.flatMap_cons, List.length_append, List.length_append]
      rcases Bool.and_eq_false_iff.mp hOne with hFits | hFitsRest
      · have := hShort hFits
        omega
      · have := hShortRest hFitsRest
        omega

theorem encodesEach_flatMap {α : Type} {encodes : α → Bytes → Prop} {enc : α → Bytes} {as : List α}
    (h : ∀ a ∈ as, encodes a (enc a)) : EncodesEach encodes as (as.flatMap enc) := by
  induction as with
  | nil => rfl
  | cons a as ih =>
    exact ⟨enc a, as.flatMap enc, List.flatMap_cons, h a List.mem_cons_self,
      ih fun b hb => h b (List.mem_cons_of_mem a hb)⟩

theorem Simple.size_lt (p : Simple) : p.size < 4294967296 := by
  cases p with
  | prim p => cases p <;> decide
  | time | duration => decide

theorem Simple.accounts_block (p : Simple) {n k : Nat} {bs : Bytes} (hCut : k = n * p.size % 4294967296)
    (hLength : bs.length = k) :
    bs.length ≤ ((p.ofBlock n bs).toList.flatMap p.memory).length ∧
      (n * p.size < 4294967296 → EncodesEach (Ty.simple p).Encodes (p.ofBlock n bs).toList bs) ∧
      (¬ n * p.size < 4294967296 → bs.length < ((p.ofBlock n bs).toList.flatMap p.memory).length) := by
  rw [p.flatMap_length, List.Vector.toList_length, hLength, hCut]
  refine ⟨Nat.mod_le _ _, ?_, ?_⟩
  · intro hFits
    rw [Nat.mod_eq_of_lt hFits] at hCut
    have hBlock := p.memory_ofBlock (n := n) (hLength.trans hCut)
    have hEach := @encodesEach_flatMap _ (Ty.simple p).Encodes p.memory (p.ofBlock n bs).toList fun _ _ => rfl
    rw [hBlock] at hEach
    exact hEach
  · intro hLong
    exact (Nat.mod_lt _ (by decide)).trans_le (Nat.not_lt.mp hLong)

theorem VectorSerializer.accounts {t : Ty} {s rest : Bytes} {v : List t.Val}
    (h : ∀ s a rest, t.read s = some (a, rest) → Accounts t.scan t.Encodes t.encoding a s rest)
    (hRead : VectorSerializer.read t t.read s = some (v, rest)) :
    Accounts (VectorSerializer.scan t t.scan) (Ty.vector t).Encodes (Ty.vector t).encoding v s rest := by
  have hLoop (hRead : ((readUInt32 s).bind fun r => readList t.read r.1.toNat r.2) = some (v, rest)) :
      Accounts (fun s => (readUInt32 s).bind fun r => scanEach t.scan r.1.toNat r.2) (Ty.vector t).Encodes
        (Ty.vector t).encoding v s rest := by
    obtain ⟨⟨len, between⟩, hLen, hList⟩ := Option.bind_eq_some_iff.mp hRead
    obtain ⟨⟨as, s'⟩, hEach, hEq⟩ := Option.map_eq_some_iff.mp hList
    cases hEq
    have hCount : as.toList.length = len.toNat := as.toList_length
    obtain ⟨block, fits, hBlock, hScan, hLe, hExact, hShort⟩ := Accounts.each h hEach
    have hSplit : s = le 4 len.toNat ++ (block ++ rest) :=
      (readUInt32_eq_some hLen).trans (congrArg (le 4 len.toNat ++ ·) hBlock)
    refine ⟨le 4 len.toNat ++ block, fits, ?_, ?_, ?_, ?_, ?_⟩
    · rw [hSplit, List.append_assoc]
    · simp only [hLen, Option.bind_some]
      exact hScan
    · simp only [Ty.encoding, List.length_append, length_le]
      omega
    · intro hFits
      refine ⟨?_, block, ?_, hExact hFits⟩
      · rw [hCount]
        exact len.toNat_lt
      · rw [hCount]
    · intro hFits
      have := hShort hFits
      simp only [Ty.encoding, List.length_append, length_le]
      omega
  cases t with
  | simple p =>
    obtain ⟨⟨len, between⟩, hLen, hBlock⟩ := Option.bind_eq_some_iff.mp hRead
    simp only at hBlock
    have hSize : (UInt32.ofNat p.size * len).toNat = len.toNat * p.size % 4294967296 := by
      rw [UInt32.toNat_mul, UInt32.toNat_ofNat', Nat.mod_eq_of_lt p.size_lt, Nat.mul_comm]
    obtain ⟨bs, hAdvance, rfl⟩ : ∃ bs, advance (UInt32.ofNat p.size * len).toNat between = some (bs, rest) ∧
        v = (p.ofBlock len.toNat bs).toList := by
      split at hBlock
      · obtain ⟨⟨bs, s'⟩, hAdvance, hEq⟩ := Option.map_eq_some_iff.mp hBlock
        cases hEq
        exact ⟨bs, hAdvance, rfl⟩
      · rename_i hNone
        cases hBlock
        have hZero : len = 0 := by
          rw [← UInt32.toNat_inj]
          rw [UInt32.lt_iff_toNat_lt] at hNone
          exact Nat.eq_zero_of_not_pos hNone
        subst hZero
        refine ⟨[], ?_, rfl⟩
        rw [UInt32.mul_zero]
        rfl
    obtain ⟨hBetween, hLength, hSkip⟩ := advance_eq_some hAdvance
    obtain ⟨hLe, hExact, hShort⟩ := p.accounts_block hSize hLength
    have hCount : (p.ofBlock len.toNat bs).toList.length = len.toNat := List.Vector.toList_length _
    refine ⟨le 4 len.toNat ++ bs, decide (p.size * len.toNat < 4294967296), ?_, ?_, ?_, ?_, ?_⟩
    · rw [readUInt32_eq_some hLen, hBetween, List.append_assoc]
    · simp only [VectorSerializer.scan, hLen, Option.bind_some, hSkip, Option.map_some]
    · simp only [Ty.encoding, List.length_append, length_le]
      omega
    · intro hFits
      refine ⟨?_, bs, ?_, hExact (by rw [Nat.mul_comm]; exact of_decide_eq_true hFits)⟩
      · rw [hCount]
        exact len.toNat_lt
      · rw [hCount]
    · intro hLong
      have := hShort (by rw [Nat.mul_comm]; exact of_decide_eq_false hLong)
      simp only [Ty.encoding, List.length_append, length_le]
      omega
  | bool | string | array t n | vector t | message fields => exact hLoop hRead

theorem ArraySerializer.accounts {t : Ty} {n : Nat} {s rest : Bytes} {v : List.Vector t.Val n}
    (h : ∀ s a rest, t.read s = some (a, rest) → Accounts t.scan t.Encodes t.encoding a s rest)
    (hRead : ArraySerializer.read t n t.read s = some (v, rest)) :
    Accounts (ArraySerializer.scan t n t.scan) (Ty.array t n).Encodes (Ty.array t n).encoding v s rest := by
  cases t with
  | simple p =>
    rw [ArraySerializer.read] at hRead
    split at hRead
    · cases hRead
    · rename_i hSome
      obtain ⟨⟨bs, s'⟩, hAdvance, hEq⟩ := Option.map_eq_some_iff.mp hRead
      cases hEq
      obtain ⟨hBetween, hLength, hSkip⟩ := advance_eq_some hAdvance
      obtain ⟨hLe, hExact, hShort⟩ := p.accounts_block (UInt32.toNat_ofNat' (n := n * p.size)) hLength
      refine ⟨bs, decide (n * p.size < 4294967296), hBetween, ?_, hLe, ?_, ?_⟩
      · simp only [ArraySerializer.scan, if_neg hSome, hSkip, Option.map_some]
      · exact fun hFits => hExact (of_decide_eq_true hFits)
      · exact fun hLong => hShort (of_decide_eq_false hLong)
  | bool | string | array t m | vector t | message fields => exact Accounts.each h hRead

mutual

theorem Ty.accounts : (t : Ty) → (s : Bytes) → (v : t.Val) → (rest : Bytes) → t.read s = some (v, rest) →
    Accounts t.scan t.Encodes t.encoding v s rest
  | .simple p, s, v, rest, h => by
    have hSplit := p.read_eq_some h
    have hSkip := skip_append (p.memory v) rest
    rw [p.memory_length, ← hSplit] at hSkip
    exact ⟨p.memory v, true, hSplit, by simp only [Ty.scan, hSkip, Option.map_some], le_refl _, fun _ => rfl, (fun h => by cases h)⟩
  | .bool, s, v, rest, h => by
    obtain ⟨⟨bs, s'⟩, hAdvance, hEq⟩ := Option.map_eq_some_iff.mp h
    obtain ⟨hSplit, hLength, hSkip⟩ := advance_eq_some hAdvance
    cases hEq
    refine ⟨bs, true, hSplit, by simp only [Ty.scan, hSkip, Option.map_some], hLength.le, ?_, nofun⟩
    intro _
    obtain ⟨b, rfl⟩ := List.length_eq_one_iff.mp hLength
    refine ⟨b, rfl, ?_⟩
    have hByte : ofLe [b] = 0 ↔ b = 0 := by
      rw [← UInt8.toNat_inj]
      simp [ofLe]
    simp only [ne_eq, hByte]
  | .string, s, v, rest, h => by
    obtain ⟨⟨len, between⟩, hLen, hText⟩ := Option.bind_eq_some_iff.mp h
    obtain ⟨hBetween, hLength, hSkip⟩ : between = v ++ rest ∧ v.length = len.toNat ∧ skip len.toNat between = some rest := by
      simp only at hText
      split at hText
      · exact advance_eq_some hText
      · rename_i hNone
        cases hText
        rw [UInt32.lt_iff_toNat_lt] at hNone
        have hZero : len.toNat = 0 := Nat.eq_zero_of_not_pos hNone
        rw [hZero]
        exact ⟨rfl, rfl, rfl⟩
    refine ⟨le 4 len.toNat ++ v, true, ?_, ?_, ?_, ?_, nofun⟩
    · rw [readUInt32_eq_some hLen, hBetween, List.append_assoc]
    · simp only [Ty.scan, hLen, Option.bind_some, hSkip, Option.map_some]
    · simp only [Ty.encoding, List.length_append, length_le, le_refl]
    · intro _
      refine ⟨?_, ?_⟩
      · rw [hLength]
        exact len.toNat_lt
      · rw [hLength]
  | .array t n, s, v, rest, h => ArraySerializer.accounts t.accounts h
  | .vector t, s, v, rest, h => VectorSerializer.accounts t.accounts h
  | .message fields, s, v, rest, h => fields.accounts s v rest h

theorem Fields.accounts : (fields : Fields) → (s : Bytes) → (v : fields.Val) → (rest : Bytes) →
    fields.read s = some (v, rest) → Accounts fields.scan fields.Encodes fields.encoding v s rest
  | .nil, s, v, rest, h => by
    cases h
    exact ⟨[], true, rfl, rfl, le_refl _, fun _ => rfl, (fun h => by cases h)⟩
  | .cons t fields, s, v, rest, h => by
    obtain ⟨⟨a, between⟩, hHead, hTail⟩ := Option.bind_eq_some_iff.mp h
    obtain ⟨⟨as, s'⟩, hRest, hEq⟩ := Option.map_eq_some_iff.mp hTail
    cases hEq
    obtain ⟨front, fits, hFront, hScan, hLe, hExact, hShort⟩ := t.accounts s a between hHead
    obtain ⟨back, fitsRest, hBack, hScanRest, hLeRest, hExactRest, hShortRest⟩ := fields.accounts between as rest hRest
    refine ⟨front ++ back, fits && fitsRest, ?_, ?_, ?_, ?_, ?_⟩
    · rw [hFront, hBack, List.append_assoc]
    · simp only [Fields.scan, hScan, Option.bind_some, hScanRest, Option.map_some]
    · simp only [Fields.encoding, List.length_append]
      omega
    · intro hBoth
      obtain ⟨hFits, hFitsRest⟩ := Bool.and_eq_true_iff.mp hBoth
      exact ⟨front, back, rfl, hExact hFits, hExactRest hFitsRest⟩
    · intro hOne
      simp only [Fields.encoding, List.length_append]
      rcases Bool.and_eq_false_iff.mp hOne with hFits | hFitsRest
      · have := hShort hFits
        omega
      · have := hShortRest hFitsRest
        omega

end

theorem readEach_of_scan {α : Type} {read : Reader UInt8 α} {scan : Bytes → Option (Bool × Bytes)}
    (h : ∀ s fits rest, scan s = some (fits, rest) → ∃ a, read s = some (a, rest)) {n : Nat} {s rest : Bytes}
    {fits : Bool} (hScan : scanEach scan n s = some (fits, rest)) : ∃ as, readEach read n s = some (as, rest) := by
  induction n generalizing s fits with
  | zero =>
    cases hScan
    exact ⟨.nil, rfl⟩
  | succ n ih =>
    obtain ⟨⟨head, between⟩, hHead, hTail⟩ := Option.bind_eq_some_iff.mp hScan
    obtain ⟨⟨tail, s'⟩, hRest, hEq⟩ := Option.map_eq_some_iff.mp hTail
    cases hEq
    obtain ⟨a, hFirst⟩ := h s head between hHead
    obtain ⟨as, hOthers⟩ := ih hRest
    exact ⟨a ::ᵥ as, by simp only [readEach, hFirst, Option.bind_some, hOthers, Option.map_some]⟩

theorem VectorSerializer.read_of_scan {t : Ty} {s rest : Bytes} {fits : Bool}
    (h : ∀ s fits rest, t.scan s = some (fits, rest) → ∃ a, t.read s = some (a, rest))
    (hScan : VectorSerializer.scan t t.scan s = some (fits, rest)) :
    ∃ v, VectorSerializer.read t t.read s = some (v, rest) := by
  have hLoop (hScan : ((readUInt32 s).bind fun r => scanEach t.scan r.1.toNat r.2) = some (fits, rest)) :
      ∃ v, ((readUInt32 s).bind fun r => readList t.read r.1.toNat r.2) = some (v, rest) := by
    obtain ⟨⟨len, between⟩, hLen, hEach⟩ := Option.bind_eq_some_iff.mp hScan
    obtain ⟨as, hRead⟩ := readEach_of_scan h hEach
    exact ⟨as.toList, by simp only [hLen, Option.bind_some, readList, hRead, Option.map_some]⟩
  cases t with
  | simple p =>
    obtain ⟨⟨len, between⟩, hLen, hBlock⟩ := Option.bind_eq_some_iff.mp hScan
    obtain ⟨s', hSkip, hEq⟩ := Option.map_eq_some_iff.mp hBlock
    cases hEq
    simp only [VectorSerializer.read, hLen, Option.bind_some]
    by_cases hSome : 0 < len
    · obtain ⟨bs, hAdvance⟩ := advance_of_skip hSkip
      exact ⟨_, by rw [if_pos hSome, hAdvance, Option.map_some]⟩
    · have hZero : len = 0 := by
        rw [← UInt32.toNat_inj]
        rw [UInt32.lt_iff_toNat_lt] at hSome
        exact Nat.eq_zero_of_not_pos hSome
      rw [hZero, UInt32.mul_zero] at hSkip
      cases hSkip
      exact ⟨[], if_neg hSome⟩
  | bool | string | array t n | vector t | message fields => exact hLoop hScan

theorem ArraySerializer.read_of_scan {t : Ty} {n : Nat} {s rest : Bytes} {fits : Bool}
    (h : ∀ s fits rest, t.scan s = some (fits, rest) → ∃ a, t.read s = some (a, rest))
    (hScan : ArraySerializer.scan t n t.scan s = some (fits, rest)) :
    ∃ v, ArraySerializer.read t n t.read s = some (v, rest) := by
  cases t with
  | simple p =>
    rw [ArraySerializer.scan] at hScan
    split at hScan
    · cases hScan
    · rename_i hSome
      obtain ⟨s', hSkip, hEq⟩ := Option.map_eq_some_iff.mp hScan
      cases hEq
      obtain ⟨bs, hAdvance⟩ := advance_of_skip hSkip
      exact ⟨_, by rw [ArraySerializer.read, if_neg hSome, hAdvance, Option.map_some]⟩
  | bool | string | array t m | vector t | message fields => exact readEach_of_scan h hScan

mutual

theorem Ty.read_of_scan : (t : Ty) → (s : Bytes) → (fits : Bool) → (rest : Bytes) → t.scan s = some (fits, rest) →
    ∃ v, t.read s = some (v, rest)
  | .simple p, s, fits, rest, h => by
    obtain ⟨s', hSkip, hEq⟩ := Option.map_eq_some_iff.mp h
    cases hEq
    exact p.read_of_skip hSkip
  | .bool, s, fits, rest, h => by
    obtain ⟨s', hSkip, hEq⟩ := Option.map_eq_some_iff.mp h
    cases hEq
    obtain ⟨bs, hAdvance⟩ := advance_of_skip hSkip
    exact ⟨_, congrArg (Option.map _) hAdvance⟩
  | .string, s, fits, rest, h => by
    obtain ⟨⟨len, between⟩, hLen, hText⟩ := Option.bind_eq_some_iff.mp h
    obtain ⟨s', hSkip, hEq⟩ := Option.map_eq_some_iff.mp hText
    cases hEq
    obtain ⟨bs, hAdvance⟩ := advance_of_skip hSkip
    simp only [Ty.read, readString, hLen, Option.bind_some]
    split
    · exact ⟨bs, hAdvance⟩
    · rename_i hNone
      rw [UInt32.lt_iff_toNat_lt] at hNone
      have hZero : len.toNat = 0 := Nat.eq_zero_of_not_pos hNone
      rw [hZero] at hSkip
      cases hSkip
      exact ⟨[], rfl⟩
  | .array t n, s, fits, rest, h => ArraySerializer.read_of_scan t.read_of_scan h
  | .vector t, s, fits, rest, h => VectorSerializer.read_of_scan t.read_of_scan h
  | .message fields, s, fits, rest, h => fields.read_of_scan s fits rest h

theorem Fields.read_of_scan : (fields : Fields) → (s : Bytes) → (fits : Bool) → (rest : Bytes) →
    fields.scan s = some (fits, rest) → ∃ v, fields.read s = some (v, rest)
  | .nil, s, fits, rest, h => by
    cases h
    exact ⟨(), rfl⟩
  | .cons t fields, s, fits, rest, h => by
    obtain ⟨⟨head, between⟩, hHead, hTail⟩ := Option.bind_eq_some_iff.mp h
    obtain ⟨⟨tail, s'⟩, hRest, hEq⟩ := Option.map_eq_some_iff.mp hTail
    cases hEq
    obtain ⟨a, hFirst⟩ := t.read_of_scan s head between hHead
    obtain ⟨as, hOthers⟩ := fields.read_of_scan between tail rest hRest
    exact ⟨(a, as), by simp only [Fields.read, hFirst, Option.bind_some, hOthers, Option.map_some]⟩

end

/-! ## Values that were read -/

theorem ArraySerializer.stored {t : Ty} {n : Nat} {v : List.Vector t.Val n} {s s' : Bytes}
    (hRead : ArraySerializer.read t n t.read s = some (v, s')) (h : ∀ s a s', t.read s = some (a, s') → t.Stored a) :
    (t.isSimple = true → 0 < n) ∧ ∀ a ∈ v.toList, t.Stored a := by
  cases t with
  | simple p =>
    refine ⟨fun _ => Nat.pos_of_ne_zero ?_, fun _ _ => trivial⟩
    intro hNone
    rw [ArraySerializer.read, if_pos hNone] at hRead
    cases hRead
  | bool | string | array t m | vector t | message fields => exact ⟨(fun h => by cases h), readEach_forall h hRead⟩

theorem VectorSerializer.stored {t : Ty} {v : List t.Val} {s s' : Bytes}
    (hRead : VectorSerializer.read t t.read s = some (v, s')) (h : ∀ s a s', t.read s = some (a, s') → t.Stored a) :
    ∀ a ∈ v, t.Stored a := by
  have hGeneral (hRead : ((readUInt32 s).bind fun r => readList t.read r.1.toNat r.2) = some (v, s')) :
      ∀ a ∈ v, t.Stored a := by
    obtain ⟨⟨len, between⟩, _, hList⟩ := Option.bind_eq_some_iff.mp hRead
    exact (readList_forall h hList).2
  cases t with
  | simple p => exact fun _ _ => trivial
  | bool | string | array t n | vector t | message fields => exact hGeneral hRead

mutual

theorem Ty.stored_of_read : (t : Ty) → ∀ s v s', t.read s = some (v, s') → t.Stored v
  | .simple _, _, _, _, _ => trivial
  | .bool, _, _, _, _ => trivial
  | .string, _, _, _, _ => trivial
  | .array t _, _, _, _, hRead => ArraySerializer.stored hRead t.stored_of_read
  | .vector t, _, _, _, hRead => VectorSerializer.stored hRead t.stored_of_read
  | .message fields, s, v, s', hRead => fields.stored_of_read s v s' hRead

theorem Fields.stored_of_read : (fields : Fields) → ∀ s v s', fields.read s = some (v, s') → fields.Stored v
  | .nil, _, _, _, _ => trivial
  | .cons t fields, s, v, s', hRead => by
    obtain ⟨⟨a, between⟩, hHead, hRest⟩ := Option.bind_eq_some_iff.mp hRead
    obtain ⟨⟨as, rest⟩, hFields, hEq⟩ := Option.map_eq_some_iff.mp hRest
    cases hEq
    exact ⟨t.stored_of_read s a between hHead, fields.stored_of_read between as _ hFields⟩

end

/-! ## Exactness -/

theorem not_readsExactly {t : Ty} {s rest : Bytes} (hScan : t.scan s = some (false, rest)) : ¬ t.ReadsExactly s := by
  intro h
  obtain ⟨v, hRead⟩ := t.read_of_scan s false rest hScan
  obtain ⟨consumed, hSplit, hEncodes, _⟩ := h v rest hRead
  obtain ⟨front, fits, hFront, hSame, _, _, hShort⟩ := t.accounts s v rest hRead
  have hFits : fits = false := congrArg Prod.fst (Option.some.inj (hSame.symm.trans hScan))
  have hConsumed : consumed = front := List.append_cancel_right (hSplit.symm.trans hFront)
  have hLess := hShort hFits
  rw [← hConsumed, t.length_of_encodes v consumed hEncodes] at hLess
  exact absurd hLess (lt_irrefl _)

/-- Reading is exact if and only if the buffer is refused, or no vector and no array of simple elements in it has a
size of more than 32 bits. -/
theorem readsExactly_iff (t : Ty) (s : Bytes) (hShort : s.length < 4294967296) :
    t.ReadsExactly s ↔ ∀ fits rest, t.scan s = some (fits, rest) → fits = true := by
  constructor
  · intro h fits rest hScan
    cases fits with
    | true => rfl
    | false => exact absurd h (not_readsExactly hScan)
  · intro hFits v rest hRead
    obtain ⟨consumed, fits, hSplit, hScan, _, hExact, _⟩ := t.accounts s v rest hRead
    have hEncodes := hExact (hFits fits rest hScan)
    have hLength := t.length_of_encodes v consumed hEncodes
    have hConsumed : consumed.length < 4294967296 := by
      rw [hSplit, List.length_append] at hShort
      omega
    refine ⟨consumed, hSplit, hEncodes, ?_⟩
    rw [t.write_eq v (t.stored_of_read s v rest hRead) (hLength ▸ hConsumed), put_of_le hLength.ge, hLength,
      Nat.sub_self]
    rfl

/-- A buffer for `stamped` with two strings and two times, and a byte behind it. -/
theorem readsExactly_stamped : stamped.ReadsExactly
    [1, 0, 0, 0, 97, 0, 0, 0, 0, 1, 0, 0, 0, 1, 0, 0, 0, 2, 0, 0, 0, 255] := by
  refine (readsExactly_iff stamped _ (by decide)).mpr ?_
  intro fits rest hScan
  cases hScan
  rfl

/-- Four bytes are read as `2 ^ 30` numbers. -/
theorem four_bytes_overfill : ¬ (Ty.message (.cons (.vector (.simple (.prim .uint32))) .nil)).ReadsExactly [0, 0, 0, 64] :=
  @not_readsExactly _ _ [] rfl

end XcRos.Serialization
