import Mathlib.Data.List.Basic
import XcRos.Foundation.Fuel
import XcRos.Foundation.Lines

/-! # Indented blocks

Documents of nested mappings and sequences with an entry on each line. What belongs to an entry stands deeper than it,
and a reader that looks at how deep the lines are finds the entries again.
-/

namespace XcRos.Foundation

universe u

/-- What stands behind a key or a dash. -/
inductive Block where
  | scalar (text : List Char)
  | mapping (entries : List (List Char × Block))
  | sequence (items : List Block)

namespace Block

/-! ## Text -/

def blanks (n : Nat) : List Char := List.replicate n ' '

def joinLines (texts : List (List Char)) : List Char := ['\n'].intercalate texts

mutual

/-- The text of a block. Lines of its own have so many blanks in front. -/
def text (n : Nat) : Block → List Char
  | .scalar s => s
  | .mapping entries => '\n' :: joinLines (entryTexts n entries)
  | .sequence items => '\n' :: joinLines (itemTexts n items)

def entryTexts (n : Nat) : List (List Char × Block) → List (List Char)
  | [] => []
  | (key, b) :: entries => (blanks n ++ key ++ ':' :: ' ' :: b.text (n + 2)) :: entryTexts n entries

def itemTexts (n : Nat) : List Block → List (List Char)
  | [] => []
  | b :: items => (blanks n ++ '-' :: ' ' :: b.text (n + 2)) :: itemTexts n items

end

/-- A mapping that is a whole text. -/
def document (entries : List (List Char × Block)) : List Char := joinLines (entryTexts 0 entries)

def dropBlanks (s : List Char) : List Char := s.dropWhile (· = ' ')

/-! ## Values -/

/-- What keys and scalars stand for, and what is made of the entries. -/
structure Meaning (κ β : Type u) where
  null : β
  list : List β → β
  dict : List (κ × β) → β
  key : List Char → Option κ
  scalar : List Char → Option β

section

variable {κ β : Type u} (M : Meaning κ β)

mutual

/-- What a block stands for; `none` is an error. Nothing behind a key is null. -/
def value : Block → Option β
  | .scalar s => M.scalar (dropBlanks s)
  | .mapping entries => if entries.isEmpty then some M.null else (entryValues entries).map M.dict
  | .sequence items => (itemValues items).map M.list

def entryValues : List (List Char × Block) → Option (List (κ × β))
  | [] => some []
  | (key, b) :: entries =>
    (M.key key).bind fun k => (b.value).bind fun v => (entryValues entries).map ((k, v) :: ·)

def itemValues : List Block → Option (List β)
  | [] => some []
  | b :: items => (b.value).bind fun v => (itemValues items).map (v :: ·)

end

end

section

variable (key scalar : List Char → Prop)

mutual

/-- The keys and scalars of a block are of the given kinds. -/
def Legal : Block → Prop
  | .scalar s => scalar s
  | .mapping entries => LegalEntries entries
  | .sequence items => items ≠ [] ∧ LegalItems items

def LegalEntries : List (List Char × Block) → Prop
  | [] => True
  | (k, b) :: entries => key k ∧ b.Legal ∧ LegalEntries entries

def LegalItems : List Block → Prop
  | [] => True
  | b :: items => b.Legal ∧ LegalItems items

end

/-- Neither a key nor a scalar is in the way of the layout. -/
structure Separate : Prop where
  key : ∀ s, key s → (∀ c ∈ s, c ≠ ':' ∧ c ≠ '\n') ∧ ∃ c rest, s = c :: rest ∧ c ≠ ' ' ∧ c ≠ '-'
  scalar : ∀ s, scalar s → '\n' ∉ s ∧ dropBlanks s ≠ []

end

/-! ## Lines -/

/-- How many blanks are in front, and the rest. -/
abbrev Line := Nat × List Char

def measure (line : List Char) : Line := ((line.takeWhile (· = ' ')).length, dropBlanks line)

/-- The lines that are not blank. -/
def lines (s : List Char) : List Line := ((s.splitOn '\n').map measure).filter fun line => !line.2.isEmpty

/-- The lines in front of the first that is at this depth, and each line of that depth with those below it. -/
def gather (n : Nat) : List Line → List Line × List (List Char × List Line)
  | [] => ([], [])
  | line :: rest =>
    let below := gather n rest
    if n < line.1 then (line :: below.1, below.2) else ([], (line.2, below.1) :: below.2)

/-! ## Reading -/

section

variable {κ β : Type u} (M : Meaning κ β)

/-- What stands behind a key or a dash, and the lines below. -/
def readRest (sub : List Line → Option β) (rest : List Char) (deeper : List Line) : Option β :=
  if dropBlanks rest = [] then sub deeper
  else if deeper = [] then M.scalar (dropBlanks rest)
  else none

def readEntry (sub : List Line → Option β) (group : List Char × List Line) : Option (κ × β) :=
  let rest := group.1.dropWhile (· ≠ ':')
  if rest.take 2 = [':', ' '] then
    (M.key (group.1.takeWhile (· ≠ ':'))).bind fun k => (readRest M sub (rest.drop 2) group.2).map fun v => (k, v)
  else none

def readItem (sub : List Line → Option β) (group : List Char × List Line) : Option β :=
  if group.1.take 2 = ['-', ' '] then readRest M sub (group.1.drop 2) group.2 else none

/-- The first line says how deep the block is, and whether it is a sequence. -/
def readBlock (sub : List Line → Option β) : List Line → Option β
  | [] => some M.null
  | first :: rest =>
    let groups := (gather first.1 (first :: rest)).2
    if rest.any fun line => line.1 < first.1 then none
    else if first.2.take 2 = ['-', ' '] then (groups.mapM (readItem M sub)).map M.list
    else (groups.mapM (readEntry M sub)).map M.dict

def readLines : Nat → List Line → Option β := fuelled (readBlock M)

def read (s : List Char) : Option β := readLines M ((lines s).length + 1) (lines s)

end

/-! ## The lines of a text -/

theorem dropBlanks_of_head {c : Char} (hc : c ≠ ' ') (s : List Char) : dropBlanks (c :: s) = c :: s :=
  List.dropWhile_cons_of_neg (by simpa using hc)

theorem measure_line (n : Nat) {c : Char} (hc : c ≠ ' ') (s : List Char) : measure (blanks n ++ c :: s) = (n, c :: s) := by
  induction n with
  | zero =>
    rw [measure, blanks, List.replicate_zero, List.nil_append, dropBlanks_of_head hc,
      List.takeWhile_cons_of_neg (by simpa using hc)]
    rfl
  | succ n ih =>
    rw [measure, dropBlanks] at ih ⊢
    obtain ⟨hLength, hRest⟩ := Prod.mk.inj ih
    rw [blanks, List.replicate_succ, List.cons_append, List.takeWhile_cons_of_pos (by decide),
      List.dropWhile_cons_of_pos (by decide), List.length_cons]
    exact Prod.ext (congrArg (· + 1) hLength) hRest

theorem lines_append_newline (s t : List Char) : lines (s ++ '\n' :: t) = lines s ++ lines t := by
  rw [lines, List.splitOn_append_cons_self, List.map_append, List.filter_append]
  rfl

theorem lines_line (n : Nat) {c : Char} (hc : c ≠ ' ') {s : List Char} (hNewline : '\n' ∉ c :: s) :
    lines (blanks n ++ c :: s) = [(n, c :: s)] := by
  have hLine : '\n' ∉ blanks n ++ c :: s := by
    rw [List.mem_append, not_or]
    refine ⟨fun hMem => ?_, hNewline⟩
    exact absurd (List.eq_of_mem_replicate hMem) (by decide)
  rw [lines, List.splitOn_eq_singleton hLine, List.map_singleton, measure_line n hc]
  rfl

theorem lines_joinLines (texts : List (List Char)) : lines (joinLines texts) = texts.flatMap lines := by
  induction texts with
  | nil => rfl
  | cons s texts ih =>
    cases texts with
    | nil => rw [joinLines, List.intercalate_singleton, List.flatMap_singleton]
    | cons t texts =>
      rw [joinLines, List.intercalate_cons_cons, List.append_assoc, List.singleton_append, lines_append_newline,
        List.flatMap_cons]
      exact congrArg (lines s ++ ·) ih

/-- What is on the line of the key. -/
def head : Block → List Char
  | .scalar s => s
  | .mapping _ | .sequence _ => []

mutual

/-- The lines below. -/
def linesBelow (n : Nat) : Block → List Line
  | .scalar _ => []
  | .mapping entries => entryLines n entries
  | .sequence items => itemLines n items

def entryLines (n : Nat) : List (List Char × Block) → List Line
  | [] => []
  | (key, b) :: entries => (n, key ++ ':' :: ' ' :: b.head) :: b.linesBelow (n + 2) ++ entryLines n entries

def itemLines (n : Nat) : List Block → List Line
  | [] => []
  | b :: items => (n, '-' :: ' ' :: b.head) :: b.linesBelow (n + 2) ++ itemLines n items

end

section

variable {key scalar : List Char → Prop}

mutual

theorem lines_text (hSeparate : Separate key scalar) : (b : Block) → b.Legal key scalar → ∀ (m n : Nat) {c : Char}
    {s : List Char}, c ≠ ' ' → '\n' ∉ c :: s →
      lines (blanks m ++ c :: (s ++ b.text n)) = (m, c :: (s ++ b.head)) :: b.linesBelow n
  | .scalar t, hLegal, m, n, c, s, hc, hNewline => by
    rw [text, head, linesBelow]
    refine lines_line m hc fun hMem => ?_
    rw [← List.cons_append, List.mem_append] at hMem
    exact hMem.elim hNewline (hSeparate.scalar t hLegal).1
  | .mapping entries, hLegal, m, n, c, s, hc, hNewline => by
    have hSplit : blanks m ++ c :: (s ++ (mapping entries).text n) =
        (blanks m ++ c :: s) ++ '\n' :: joinLines (entryTexts n entries) := by
      rw [text, List.append_assoc, List.cons_append]
    rw [hSplit, lines_append_newline, lines_line m hc hNewline, lines_joinLines,
      lines_entryTexts hSeparate entries hLegal n, head, linesBelow, List.append_nil, List.singleton_append]
  | .sequence items, hLegal, m, n, c, s, hc, hNewline => by
    have hSplit : blanks m ++ c :: (s ++ (sequence items).text n) =
        (blanks m ++ c :: s) ++ '\n' :: joinLines (itemTexts n items) := by
      rw [text, List.append_assoc, List.cons_append]
    rw [hSplit, lines_append_newline, lines_line m hc hNewline, lines_joinLines,
      lines_itemTexts hSeparate items hLegal.2 n, head, linesBelow, List.append_nil, List.singleton_append]

theorem lines_entryTexts (hSeparate : Separate key scalar) : (entries : List (List Char × Block)) →
    LegalEntries key scalar entries → ∀ n : Nat, (entryTexts n entries).flatMap lines = entryLines n entries
  | [], _, _ => rfl
  | (k, b) :: entries, hLegal, n => by
    obtain ⟨hKey, hBlock, hRest⟩ := hLegal
    obtain ⟨hChars, c, rest, rfl, hc, -⟩ := hSeparate.key k hKey
    have hNewline : '\n' ∉ c :: (rest ++ [':', ' ']) := by
      rw [← List.cons_append, List.mem_append, not_or]
      exact ⟨fun hMem => (hChars _ hMem).2 rfl, by decide⟩
    have hFirst := lines_text hSeparate b hBlock n (n + 2) hc hNewline
    rw [List.append_assoc, List.append_assoc] at hFirst
    rw [entryTexts, List.flatMap_cons, entryLines, lines_entryTexts hSeparate entries hRest n, List.append_assoc]
    exact congrArg (· ++ entryLines n entries) hFirst

theorem lines_itemTexts (hSeparate : Separate key scalar) : (items : List Block) → LegalItems key scalar items →
    ∀ n : Nat, (itemTexts n items).flatMap lines = itemLines n items
  | [], _, _ => rfl
  | b :: items, hLegal, n => by
    have hFirst := lines_text hSeparate b hLegal.1 n (n + 2) (c := '-') (s := [' ']) (by decide) (by decide)
    rw [itemTexts, List.flatMap_cons, itemLines, lines_itemTexts hSeparate items hLegal.2 n]
    exact congrArg (· ++ itemLines n items) hFirst

end

end

/-! ## What is read -/

mutual

theorem le_linesBelow : (b : Block) → ∀ n : Nat, ∀ line ∈ b.linesBelow n, n ≤ line.1
  | .scalar _, _ => fun _ h => absurd h List.not_mem_nil
  | .mapping entries, n => le_entryLines entries n
  | .sequence items, n => le_itemLines items n

theorem le_entryLines : (entries : List (List Char × Block)) → ∀ n : Nat, ∀ line ∈ entryLines n entries, n ≤ line.1
  | [], _ => fun _ h => absurd h List.not_mem_nil
  | (_, b) :: entries, n => by
    intro line hLine
    rw [entryLines, List.mem_append, List.mem_cons] at hLine
    obtain (rfl | hBelow) | hRest := hLine
    · exact Nat.le_refl n
    · have := le_linesBelow b (n + 2) line hBelow
      omega
    · exact le_entryLines entries n line hRest

theorem le_itemLines : (items : List Block) → ∀ n : Nat, ∀ line ∈ itemLines n items, n ≤ line.1
  | [], _ => fun _ h => absurd h List.not_mem_nil
  | b :: items, n => by
    intro line hLine
    rw [itemLines, List.mem_append, List.mem_cons] at hLine
    obtain (rfl | hBelow) | hRest := hLine
    · exact Nat.le_refl n
    · have := le_linesBelow b (n + 2) line hBelow
      omega
    · exact le_itemLines items n line hRest

end

theorem gather_deeper {n : Nat} {front : List Line} (h : ∀ line ∈ front, n < line.1) (rest : List Line) :
    gather n (front ++ rest) = (front ++ (gather n rest).1, (gather n rest).2) := by
  induction front with
  | nil => rfl
  | cons line front ih =>
    obtain ⟨hLine, hFront⟩ := List.forall_mem_cons.mp h
    rw [List.cons_append, gather, ih hFront]
    exact if_pos hLine

theorem gather_group (n : Nat) (s : List Char) {deeper : List Line} (h : ∀ line ∈ deeper, n < line.1) {rest : List Line}
    {groups : List (List Char × List Line)} (hRest : gather n rest = ([], groups)) :
    gather n ((n, s) :: deeper ++ rest) = ([], (s, deeper) :: groups) := by
  rw [List.cons_append, gather, gather_deeper h, hRest]
  exact (if_neg (Nat.lt_irrefl n)).trans (by rw [List.append_nil])

theorem lt_linesBelow (b : Block) (n : Nat) : ∀ line ∈ b.linesBelow (n + 2), n < line.1 := by
  intro line hLine
  have := le_linesBelow b (n + 2) line hLine
  omega

def entryGroup (n : Nat) (entry : List Char × Block) : List Char × List Line :=
  (entry.1 ++ ':' :: ' ' :: entry.2.head, entry.2.linesBelow (n + 2))

def itemGroup (n : Nat) (b : Block) : List Char × List Line := ('-' :: ' ' :: b.head, b.linesBelow (n + 2))

theorem gather_entryLines (n : Nat) (entries : List (List Char × Block)) :
    gather n (entryLines n entries) = ([], entries.map (entryGroup n)) := by
  induction entries with
  | nil => rfl
  | cons entry entries ih => exact gather_group n _ (lt_linesBelow entry.2 n) ih

theorem gather_itemLines (n : Nat) (items : List Block) : gather n (itemLines n items) = ([], items.map (itemGroup n)) := by
  induction items with
  | nil => rfl
  | cons b items ih => exact gather_group n _ (lt_linesBelow b n) ih

section

variable {κ β : Type u} {M : Meaning κ β} {key scalar : List Char → Prop} {sub : List Line → Option β} {fuel : Nat}

/-- What reads the lines below of a block that has so few. -/
def ReadsBelow (M : Meaning κ β) (key scalar : List Char → Prop) (sub : List Line → Option β) (fuel : Nat) : Prop :=
  ∀ (b : Block) (n : Nat), b.Legal key scalar → (∀ s, b ≠ .scalar s) → (b.linesBelow n).length < fuel →
    sub (b.linesBelow n) = b.value M

theorem readRest_block (hSeparate : Separate key scalar) (hSub : ReadsBelow M key scalar sub fuel) {b : Block} {n : Nat}
    (hLegal : b.Legal key scalar) (hLength : (b.linesBelow n).length < fuel) :
    readRest M sub b.head (b.linesBelow n) = b.value M := by
  cases b with
  | scalar s =>
    rw [readRest, head, linesBelow, if_neg (hSeparate.scalar s hLegal).2, if_pos rfl, value]
  | mapping entries => exact (if_pos rfl).trans (hSub (.mapping entries) n hLegal (by rintro s ⟨⟩) hLength)
  | sequence items => exact (if_pos rfl).trans (hSub (.sequence items) n hLegal (by rintro s ⟨⟩) hLength)

theorem readEntry_group (k : List Char) (hKey : ∀ c ∈ k, c ≠ ':') (rest : List Char) (deeper : List Line) :
    readEntry M sub (k ++ ':' :: ' ' :: rest, deeper) =
      (M.key k).bind fun k' => (readRest M sub rest deeper).map fun v => (k', v) := by
  have hPos : ∀ c ∈ k, decide (c ≠ ':') = true := fun c hc => decide_eq_true (hKey c hc)
  have hDrop : (k ++ ':' :: ' ' :: rest).dropWhile (· ≠ ':') = ':' :: ' ' :: rest := by
    rw [List.dropWhile_append_of_pos hPos]
    rfl
  have hTake : (k ++ ':' :: ' ' :: rest).takeWhile (· ≠ ':') = k := by
    rw [List.takeWhile_append_of_pos hPos]
    exact List.append_nil k
  rw [readEntry]
  dsimp only
  rw [hDrop, hTake]
  rfl

theorem mapM_readEntry (hSeparate : Separate key scalar) (hSub : ReadsBelow M key scalar sub fuel) (n : Nat)
    {entries : List (List Char × Block)} (hLegal : LegalEntries key scalar entries)
    (hLength : (entryLines n entries).length ≤ fuel) :
    (entries.map (entryGroup n)).mapM (readEntry M sub) = entryValues M entries := by
  induction entries with
  | nil => rfl
  | cons entry entries ih =>
    obtain ⟨k, b⟩ := entry
    obtain ⟨hKey, hBlock, hRest⟩ := hLegal
    rw [entryLines, List.length_append, List.length_cons] at hLength
    have hFirst : readEntry M sub (entryGroup n (k, b)) = (M.key k).bind fun k' => (b.value M).map fun v => (k', v) := by
      rw [entryGroup, readEntry_group k fun c hc => ((hSeparate.key k hKey).1 c hc).1]
      dsimp only
      rw [readRest_block hSeparate hSub hBlock (by omega)]
    rw [List.map_cons, List.mapM_cons, hFirst, ih hRest (by omega), entryValues]
    cases M.key k with
    | none => rfl
    | some k' =>
      cases b.value M with
      | none => rfl
      | some v => cases entryValues M entries <;> rfl

theorem mapM_readItem (hSeparate : Separate key scalar) (hSub : ReadsBelow M key scalar sub fuel) (n : Nat)
    {items : List Block} (hLegal : LegalItems key scalar items) (hLength : (itemLines n items).length ≤ fuel) :
    (items.map (itemGroup n)).mapM (readItem M sub) = itemValues M items := by
  induction items with
  | nil => rfl
  | cons b items ih =>
    rw [itemLines, List.length_append, List.length_cons] at hLength
    have hFirst : readItem M sub (itemGroup n b) = b.value M :=
      (if_pos rfl).trans (readRest_block hSeparate hSub hLegal.1 (by omega))
    rw [List.map_cons, List.mapM_cons, hFirst, ih hLegal.2 (by omega), itemValues]
    cases b.value M with
    | none => rfl
    | some v => cases itemValues M items <;> rfl

theorem any_shallow {n : Nat} {ls : List Line} (h : ∀ line ∈ ls, n ≤ line.1) :
    ¬ (ls.any fun line => line.1 < n) = true := by
  intro hAny
  obtain ⟨line, hLine, hLess⟩ := List.any_eq_true.mp hAny
  exact absurd (of_decide_eq_true hLess) (Nat.not_lt.mpr (h line hLine))

theorem readBlock_below (hSeparate : Separate key scalar) (hSub : ReadsBelow M key scalar sub fuel) :
    ReadsBelow M key scalar (readBlock M sub) (fuel + 1) := by
  intro b n hLegal hBlock hLength
  cases b with
  | scalar s => exact absurd rfl (hBlock s)
  | mapping entries =>
    cases entries with
    | nil => rfl
    | cons entry entries =>
      obtain ⟨k, b⟩ := entry
      obtain ⟨-, c, s, hHead, -, hDash⟩ := hSeparate.key k hLegal.1
      have hShallow := any_shallow fun line hLine =>
        le_entryLines ((k, b) :: entries) n line (List.mem_cons_of_mem _ hLine)
      have hNot : ¬ (k ++ ':' :: ' ' :: b.head).take 2 = ['-', ' '] := by
        rw [hHead]
        exact fun hEq => hDash (List.cons.inj hEq).1
      have hGroups : (gather n (entryLines n ((k, b) :: entries))).2 = ((k, b) :: entries).map (entryGroup n) :=
        congrArg Prod.snd (gather_entryLines n ((k, b) :: entries))
      have hEach := mapM_readEntry hSeparate hSub n hLegal (Nat.le_of_lt_succ hLength)
      rw [← hGroups] at hEach
      exact (if_neg hShallow).trans ((if_neg hNot).trans (congrArg (Option.map M.dict) hEach))
  | sequence items =>
    cases items with
    | nil => exact absurd rfl hLegal.1
    | cons b items =>
      have hShallow := any_shallow fun line hLine => le_itemLines (b :: items) n line (List.mem_cons_of_mem _ hLine)
      have hGroups : (gather n (itemLines n (b :: items))).2 = (b :: items).map (itemGroup n) :=
        congrArg Prod.snd (gather_itemLines n (b :: items))
      have hEach := mapM_readItem hSeparate hSub n hLegal.2 (Nat.le_of_lt_succ hLength)
      rw [← hGroups] at hEach
      exact (if_neg hShallow).trans ((if_pos rfl).trans (congrArg (Option.map M.list) hEach))

theorem readLines_below (hSeparate : Separate key scalar) (fuel : Nat) : ReadsBelow M key scalar (readLines M fuel) fuel := by
  induction fuel with
  | zero => exact fun _ _ _ _ hLength => absurd hLength (Nat.not_lt_zero _)
  | succ fuel ih => exact readBlock_below hSeparate ih

theorem read_document (hSeparate : Separate key scalar) {entries : List (List Char × Block)}
    (hLegal : LegalEntries key scalar entries) : read M (document entries) = (mapping entries).value M := by
  have hLines : lines (document entries) = (mapping entries).linesBelow 0 := by
    rw [document, lines_joinLines, lines_entryTexts hSeparate entries hLegal, linesBelow]
  rw [read, hLines]
  exact readLines_below hSeparate _ (mapping entries) 0 hLegal (by rintro s ⟨⟩) (Nat.lt_succ_self _)

end

end Block

end XcRos.Foundation
