import XcRos.Genpy.StrifyBlocks

/-! # Reading YAML

What is relied on about the library that reads the texts: the block structure, integers, truth values and lists of them
are read as YAML 1.1 has them. Other words are read in some way, where a name that is read as a string is read as itself.
-/

namespace XcRos.Genpy

open XcRos.Foundation XcRos.Msg

/-! ## Dictionaries -/

def dictInsert (key : Key) (v : PyObj) : List (Key × PyObj) → List (Key × PyObj)
  | [] => [(key, v)]
  | (k, w) :: items => if k = key then (k, v) :: items else (k, w) :: dictInsert key v items

def dictOf (items : List (Key × PyObj)) : List (Key × PyObj) :=
  items.foldl (fun dict item => dictInsert item.1 item.2 dict) []

theorem keys_dictInsert (key : Key) (v : PyObj) (items : List (Key × PyObj)) (k : Key) :
    k ∈ (dictInsert key v items).map Prod.fst ↔ k = key ∨ k ∈ items.map Prod.fst := by
  induction items with
  | nil => simp [dictInsert]
  | cons item items ih =>
    obtain ⟨l, w⟩ := item
    rw [dictInsert]
    split
    · rename_i hKey
      simp [hKey]
    · simp only [List.map_cons, List.mem_cons, ih]
      tauto

theorem keys_foldl_dictInsert (items dict : List (Key × PyObj)) (k : Key) :
    k ∈ (items.foldl (fun dict item => dictInsert item.1 item.2 dict) dict).map Prod.fst ↔
      k ∈ dict.map Prod.fst ∨ k ∈ items.map Prod.fst := by
  induction items generalizing dict with
  | nil => simp
  | cons item items ih =>
    rw [List.foldl_cons, ih, keys_dictInsert, List.map_cons, List.mem_cons]
    tauto

theorem keys_dictOf (items : List (Key × PyObj)) (k : Key) : k ∈ (dictOf items).map Prod.fst ↔ k ∈ items.map Prod.fst := by
  rw [dictOf, keys_foldl_dictInsert]
  simp

theorem dictInsert_of_not_mem {key : Key} {items : List (Key × PyObj)} (h : key ∉ items.map Prod.fst) (v : PyObj) :
    dictInsert key v items = items ++ [(key, v)] := by
  induction items with
  | nil => rfl
  | cons item items ih =>
    obtain ⟨hHead, hTail⟩ := not_or.mp fun hMem => h (List.mem_cons.mpr hMem)
    rw [dictInsert, if_neg (Ne.symm hHead), ih hTail]
    rfl

theorem foldl_dictInsert_of_nodup (items dict : List (Key × PyObj)) (h : ((dict ++ items).map Prod.fst).Nodup) :
    items.foldl (fun dict item => dictInsert item.1 item.2 dict) dict = dict ++ items := by
  induction items generalizing dict with
  | nil => rw [List.append_nil]; rfl
  | cons item items ih =>
    have hFresh : item.1 ∉ dict.map Prod.fst := by
      rw [List.map_append, List.nodup_append] at h
      exact fun hMem => h.2.2 _ hMem _ List.mem_cons_self rfl
    have hMore : dict ++ item :: items = (dict ++ [item]) ++ items := by rw [List.append_assoc]; rfl
    rw [List.foldl_cons, dictInsert_of_not_mem hFresh, ih _ (by rwa [← hMore]), hMore]

theorem dictOf_of_nodup {items : List (Key × PyObj)} (h : (items.map Prod.fst).Nodup) : dictOf items = items :=
  foldl_dictInsert_of_nodup items [] h

/-! ## Readers -/

/-- How a YAML library reads texts, keys of mappings, and values that are on one line; `none` is an exception. -/
structure Yaml where
  load : Str → Option PyObj
  key : Str → Option Key
  scalar : Str → Option PyObj

namespace Yaml

def meaning (y : Yaml) : Block.Meaning Key PyObj where
  null := .none
  list := .list
  dict := fun items => .dict (dictOf items)
  key := y.key
  scalar := y.scalar

/-- The part of YAML 1.1 that the texts of messages are written in. -/
structure Reads (y : Yaml) (unicodeWord : Char → Bool) : Prop where
  document : ∀ entries, Block.LegalEntries (fun name => isLegalResourceBaseName unicodeWord name = true) ScalarText entries →
    y.load (Block.document entries) = (Block.mapping entries).value y.meaning
  int : ∀ n, y.scalar (intText n) = some (.int n)
  bool : ∀ b, y.scalar (boolText b) = some (.bool b)
  ints : ∀ ns : List Int, y.scalar (listText (ns.map intText)) = some (.list (ns.map .int))
  bools : ∀ bs : List Bool, y.scalar (listText (bs.map boolText)) = some (.list (bs.map .bool))
  /-- A text with `b` in front is not tagged as binary. -/
  bytes : ∀ bs v, y.scalar (bytesText bs) = some v → ∃ s, v = .str s
  key : ∀ name s, isLegalResourceBaseName unicodeWord name = true → y.key name = some (.str s) → s = name
  stamp : y.key (str "secs") = some (.str (str "secs")) ∧ y.key (str "nsecs") = some (.str (str "nsecs"))

end Yaml

/-! ## Texts without blanks in front -/

theorem dropBlanks_intText (n : Int) : Block.dropBlanks (intText n) = intText n := by
  rw [intText]
  split
  · exact Block.dropBlanks_of_head (by decide) _
  · obtain ⟨d, ds, hDigits⟩ := List.exists_cons_of_ne_nil (decimal_ne_nil n.natAbs)
    have hd : d ≠ ' ' := by
      rintro rfl
      have := decimal_digits n.natAbs ' ' (by rw [hDigits]; exact List.mem_cons_self)
      revert this
      decide
    rw [hDigits]
    exact Block.dropBlanks_of_head hd ds

theorem dropBlanks_blanks (n : Nat) (s : Str) : Block.dropBlanks (Block.blanks n ++ s) = Block.dropBlanks s := by
  induction n with
  | zero => rfl
  | succ n ih =>
    rw [Block.blanks, List.replicate_succ, List.cons_append, Block.dropBlanks, List.dropWhile_cons_of_pos (by decide)]
    exact ih

theorem dropBlanks_boolText (b : Bool) : Block.dropBlanks (boolText b) = boolText b := by cases b <;> rfl

theorem dropBlanks_listText (texts : List Str) : Block.dropBlanks (listText texts) = listText texts :=
  Block.dropBlanks_of_head (by decide) _

theorem dropBlanks_bytesText (bs : Bytes) : Block.dropBlanks (bytesText bs) = bytesText bs :=
  Block.dropBlanks_of_head (by decide) _

end XcRos.Genpy
