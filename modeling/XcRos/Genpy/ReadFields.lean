import XcRos.Genpy.Read

/-! # What the emitted deserializer makes of any bytes

The code for a list of entries reads one behind the other, and fills the object of its scope with what it reads.
Where reading raises, the code raises the same.
-/

namespace XcRos.Genpy

open XcRos.Foundation XcRos.Msg

def readLeaves : List (Path × Ty) → Scan Fault UInt8 (List (Path × PyVal))
  | [] => .pure []
  | leaf :: leaves => .map₂ (fun v pairs => (leaf.1, v) :: pairs) leaf.2.read (readLeaves leaves)

structure Places (entries : List Entry) (o : PyVal) : Prop where
  named : ∀ e ∈ entries, e.1.2 ≠ []
  places : ∀ e ∈ entries, ∃ w, o.at? e.1.2 = some w ∧ e.2.Instance w
  apart : (entries.map fun e => e.1.2).Pairwise PyVal.Apart

/-- A run raises what reading raises, or changes the object at a path of the variable to what is made of the thing
read, and goes on behind it. -/
structure Fills {α : Type} (run : Except Fault Frame) (f : Frame) (depth counter : Nat) (root : Var) (path : Path)
    (change : α → Option PyVal) (result : Except Fault (α × Nat)) : Prop where
  reads : ∀ a n, result = .ok (a, n) → ∃ f' o', run = .ok f' ∧ change a = some o' ∧
    f.Becomes f' depth counter root path o' ∧ f'.stop = f.stop + n
  raises : ∀ fault, result = .error fault → run = .error fault

def Reads (env : Env) (s : Scope) (entries : List Entry) (counter : Nat) (code : List Stmt) : Prop :=
  ∀ (f : Frame) (root : Var) (path : Path) (o : PyVal), f.Scoped s counter root path o → Places entries o →
    Fills (runAll env code f) f s.depth counter root path (fun pairs => setEach pairs o)
      (readLeaves (leavesOf entries) (env.input.drop f.stop))

/-! ## Values for leaves -/

theorem paths_of_readLeaves {leaves : List (Path × Ty)} {bs : Bytes} {pairs : List (Path × PyVal)} {n : Nat}
    (h : readLeaves leaves bs = .ok (pairs, n)) : pairs.map Prod.fst = leaves.map Prod.fst := by
  induction leaves generalizing bs pairs n with
  | nil =>
    cases h
    rfl
  | cons leaf leaves ih =>
    obtain ⟨⟨v, i⟩, _, hRest⟩ := exists_of_bind h
    obtain ⟨⟨more, j⟩, hMore, hEq⟩ := exists_of_map hRest
    obtain ⟨⟨tail, k⟩, hTail, hCons⟩ := exists_of_map hMore
    cases hCons
    cases hEq
    rw [List.map_cons, List.map_cons, ih hTail]

theorem readLeaves_append (front leaves : List (Path × Ty)) :
    readLeaves (front ++ leaves) = .map₂ (· ++ ·) (readLeaves front) (readLeaves leaves) := by
  induction front with
  | nil => exact ((Scan.pure_bind [] _).trans (Scan.map_id _)).symm
  | cons leaf front ih =>
    simp only [List.cons_append, readLeaves, ih, Scan.map₂, Scan.bind_assoc, Scan.bind_map, Scan.map_bind, Scan.map_map]

theorem setEach_append (front pairs : List (Path × PyVal)) (o : PyVal) :
    setEach (front ++ pairs) o = (setEach front o).bind (setEach pairs) := List.foldlM_append

theorem at?_setEach {pairs : List (Path × PyVal)} {o o' : PyVal} {q : Path} (h : setEach pairs o = some o')
    (hApart : ∀ pair ∈ pairs, PyVal.Apart pair.1 q) : o'.at? q = o.at? q := by
  induction pairs generalizing o with
  | nil =>
    cases h
    rfl
  | cons pair pairs ih =>
    rw [setEach_cons] at h
    obtain ⟨o₁, hFirst, hRest⟩ := Option.bind_eq_some_iff.mp h
    rw [ih hRest fun pair' hPair => hApart pair' (List.mem_cons_of_mem _ hPair)]
    exact PyVal.at?_modify_apart (hApart pair List.mem_cons_self) hFirst

theorem setEach_isSome {pairs : List (Path × PyVal)} {o : PyVal} (hPlaces : ∀ pair ∈ pairs, ∃ w, o.at? pair.1 = some w)
    (hApart : (pairs.map Prod.fst).Pairwise PyVal.Apart) : ∃ o', setEach pairs o = some o' := by
  induction pairs generalizing o with
  | nil => exact ⟨o, rfl⟩
  | cons pair pairs ih =>
    obtain ⟨hHead, hTail⟩ := List.pairwise_cons.mp hApart
    obtain ⟨w, hw⟩ := hPlaces pair List.mem_cons_self
    have hSome : ∃ o₁, PyVal.set pair.1 pair.2 o = some o₁ := PyVal.modify_isSome hw rfl
    obtain ⟨o₁, hSet⟩ := hSome
    have hRest : ∀ pair' ∈ pairs, ∃ w, o₁.at? pair'.1 = some w := by
      intro pair' hPair
      rw [PyVal.at?_modify_apart (hHead _ (List.mem_map.mpr ⟨pair', hPair, rfl⟩)) hSet]
      exact hPlaces pair' (List.mem_cons_of_mem _ hPair)
    obtain ⟨o', ho⟩ := ih hRest hTail
    exact ⟨o', by rw [setEach_cons, hSet, Option.bind_some, ho]⟩

theorem Places.front {front entries : List Entry} {o : PyVal} (h : Places (front ++ entries) o) : Places front o where
  named := fun e he => h.named e (List.mem_append_left _ he)
  places := fun e he => h.places e (List.mem_append_left _ he)
  apart := (List.pairwise_append.mp (List.map_append ▸ h.apart)).1

theorem Places.behind {front entries : List Entry} {o o' : PyVal} (h : Places (front ++ entries) o) {bs : Bytes}
    {pairs : List (Path × PyVal)} {n : Nat} (hRead : readLeaves (leavesOf front) bs = .ok (pairs, n))
    (hSet : setEach pairs o = some o') : Places entries o' where
  named := fun e he => h.named e (List.mem_append_right _ he)
  places := by
    intro e he
    obtain ⟨w, hw, hInstance⟩ := h.places e (List.mem_append_right _ he)
    refine ⟨w, ?_, hInstance⟩
    rw [at?_setEach hSet, hw]
    intro pair hPair
    have hMem : pair.1 ∈ (leavesOf front).map Prod.fst := paths_of_readLeaves hRead ▸ List.mem_map.mpr ⟨pair, hPair, rfl⟩
    obtain ⟨leaf, hLeaf, hPath⟩ := List.mem_map.mp hMem
    obtain ⟨e', he', rfl⟩ := List.mem_map.mp hLeaf
    have hApart := (List.pairwise_append.mp (List.map_append ▸ h.apart)).2.2
    exact hPath ▸ hApart _ (List.mem_map.mpr ⟨e', he', rfl⟩) _ (List.mem_map.mpr ⟨e, he, rfl⟩)
  apart := (List.pairwise_append.mp (List.map_append ▸ h.apart)).2.1

/-! ## Runs -/

namespace Fills

variable {α : Type} {env : Env} {code : List Stmt} {run : Except Fault Frame} {f f₁ : Frame} {depth counter : Nat}
  {root : Var} {path : Path} {change : α → Option PyVal} {result : Except Fault (α × Nat)}

theorem after {front : List Stmt} (h : Fills (runAll env code f₁) f₁ depth counter root path change result)
    (hRun : execAll env front f = some f₁) (hStop : f₁.stop = f.stop) (hAgrees : Agrees depth counter f f₁)
    (hRoot : Kept depth counter root) : Fills (runAll env (front ++ code) f) f depth counter root path change result where
  reads := by
    intro a n hResult
    obtain ⟨f', o', hCode, hChange, hBecomes, hStop'⟩ := h.reads a n hResult
    rw [runAll_append, runAll_eq_ok.mpr hRun]
    exact ⟨f', o', hCode, hChange, hBecomes.of_agrees hAgrees hRoot, by rw [hStop', hStop]⟩
  raises := by
    intro fault hResult
    rw [runAll_append, runAll_eq_ok.mpr hRun]
    exact h.raises fault hResult

end Fills

section

variable {env : Env} {s : Scope}

theorem reads_nil (counter : Nat) : Reads env s [] counter [] := by
  intro f root path o hScope _
  constructor
  · rintro _ _ ⟨⟩
    exact ⟨f, o, rfl, rfl, hScope.holds.becomes_same s.depth counter, rfl⟩
  · rintro _ ⟨⟩

theorem reads_append {front entries : List Entry} {counter counter' : Nat} {code more : List Stmt}
    (hCounter : counter ≤ counter') (hFront : Reads env s front counter code)
    (hEntries : Reads env s entries counter' more) : Reads env s (front ++ entries) counter (code ++ more) := by
  intro f root path o hScope hPlaces
  have hFirst := hFront f root path o hScope hPlaces.front
  rw [leavesOf_append, readLeaves_append, runAll_append]
  cases hRead : readLeaves (leavesOf front) (env.input.drop f.stop) with
  | error fault =>
    rw [hFirst.raises fault hRead, Scan.map₂, Scan.bind_of_error hRead]
    exact ⟨by rintro _ _ ⟨⟩, by rintro _ ⟨⟩; rfl⟩
  | ok r =>
    obtain ⟨pairs, n⟩ := r
    obtain ⟨f₁, o₁, hRun₁, hSet₁, hBecomes₁, hStop₁⟩ := hFirst.reads pairs n hRead
    have hScope₁ := (hScope.becomes hBecomes₁).later hCounter
    have hSecond := hEntries f₁ root path o₁ hScope₁ (hPlaces.behind hRead hSet₁)
    rw [hStop₁, ← List.drop_drop] at hSecond
    rw [hRun₁, Scan.map₂, Scan.bind_of_ok hRead]
    constructor
    · intro all total hAll
      obtain ⟨⟨both, k⟩, hMap, hEq⟩ := exists_of_map hAll
      obtain ⟨rest, hRest, rfl⟩ := Scan.map_eq_ok hMap
      cases hEq
      obtain ⟨f₂, o₂, hRun₂, hSet₂, hBecomes₂, hStop₂⟩ := hSecond.reads rest k hRest
      refine ⟨f₂, o₂, hRun₂, ?_, hBecomes₁.trans (hBecomes₂.mono (Nat.le_refl _) hCounter), ?_⟩
      · rw [setEach_append, hSet₁, Option.bind_some, hSet₂]
      · rw [hStop₂, hStop₁, Nat.add_assoc]
    · intro fault hAll
      exact hSecond.raises fault (Scan.map_eq_error (error_of_map hAll))

/-! ## Chunks of simple fields -/

theorem exists_leafChunk {entries : List Entry}
    (hSimple : ∀ e ∈ entries, ∃ simple, simpleOf e.1.1 = some simple ∧ e.2 = .simple simple) :
    ∃ chunk : List (Path × Simple), entries.map Prod.fst = chunk.map (fun l => (l.2.name, l.1)) ∧
      leavesOf entries = chunk.map fun l => (l.1, .simple l.2) := by
  induction entries with
  | nil => exact ⟨[], rfl, rfl⟩
  | cons e entries ih =>
    obtain ⟨chunk, hFields, hLeaves⟩ := ih fun e' he' => hSimple e' (List.mem_cons_of_mem e he')
    obtain ⟨simple, hOf, hTy⟩ := hSimple e List.mem_cons_self
    refine ⟨(e.1.2, simple) :: chunk, ?_, ?_⟩
    · rw [List.map_cons, List.map_cons, hFields, name_of_simpleOf hOf]
    · rw [List.map_cons, ← hLeaves, leavesOf, List.map_cons, hTy]
      rfl

def chunkItems (chunk : List (Path × Simple)) : List Item := chunk.map fun l => .value l.2.code

theorem computeStructPattern_names {chunk : List (Path × Simple)} (hNonempty : chunk ≠ []) :
    computeStructPattern (chunk.map fun l => l.2.name) = some (chunk.map fun l => l.2.letter) := by
  have hTypes : chunk.map (fun l => l.2.name) ≠ [] := by simpa using hNonempty
  rw [computeStructPattern, if_neg hTypes]
  clear hTypes hNonempty
  induction chunk with
  | nil => rfl
  | cons l chunk ih =>
    have hName : simpleOf l.2.name = some l.2 := by cases l.2 <;> decide
    rw [List.map_cons, List.mapM_cons, hName, ih]
    rfl

theorem formatItems_chunk (chunk : List (Path × Simple)) :
    formatItems (reducePattern (chunk.map fun l => l.2.letter)) = some (chunkItems chunk) := by
  have h := formatItems_simples (chunk.map Prod.snd)
  rw [List.map_map, List.map_map, List.map_map] at h
  exact h

theorem readLeaves_chunk (chunk : List (Path × Simple)) :
    readLeaves (chunk.map fun l => (l.1, .simple l.2)) =
      .checked .struct (itemsSize (chunkItems chunk)) (itemsSize (chunkItems chunk)) fun bs =>
        (chunk.zip (unpackItems (chunkItems chunk) bs)).map fun cell => (cell.1.1, cell.1.2.ofNumber cell.2) := by
  induction chunk with
  | nil => rfl
  | cons l chunk ih =>
    have hSize : itemsSize (chunkItems (l :: chunk)) = l.2.code.size + itemsSize (chunkItems chunk) := List.sum_cons
    rw [List.map_cons, readLeaves, ih, Ty.read, Simple.read, Scan.map₂_checked, hSize]
    rfl

theorem unpackItems_length (items : List Item) (bs : Bytes) : (unpackItems items bs).length = items.length := by
  induction items generalizing bs with
  | nil => rfl
  | cons item items ih => rw [unpackItems, List.length_cons, List.length_cons, ih]

theorem setEach_ofNumber {cells : List ((Path × Simple) × PyVal)} (hApart : (cells.map fun cell => cell.1.1).Pairwise PyVal.Apart)
    (o : PyVal) :
    (setEach (cells.map fun cell => (cell.1.1, cell.2)) o).bind
        (boolEach ((cells.filter fun cell => cell.1.2 = .bool).map fun cell => cell.1.1)) =
      setEach (cells.map fun cell => (cell.1.1, cell.1.2.ofNumber cell.2)) o := by
  induction cells generalizing o with
  | nil => rfl
  | cons cell cells ih =>
    obtain ⟨hHead, hTail⟩ := List.pairwise_cons.mp hApart
    have hRest := ih hTail
    rw [List.map_cons, List.map_cons, setEach_cons, setEach_cons, Option.bind_assoc]
    by_cases hBool : cell.1.2 = .bool
    · have hApartHead : ∀ pair ∈ cells.map (fun cell => (cell.1.1, cell.2)), PyVal.Apart pair.1 cell.1.1 := by
        intro pair hPair
        obtain ⟨cell', hCell, rfl⟩ := List.mem_map.mp hPair
        exact (hHead _ (List.mem_map.mpr ⟨cell', hCell, rfl⟩)).symm
      have hSet : PyVal.set cell.1.1 (cell.1.2.ofNumber cell.2) o =
          (PyVal.set cell.1.1 cell.2 o).bind (PyVal.modify cell.1.1 fun w => some (.bool w.truth)) := by
        rw [PyVal.set, PyVal.set, PyVal.modify_modify, Simple.ofNumber, if_pos hBool]
        rfl
      rw [List.filter_cons_of_pos (by simpa using hBool), List.map_cons, hSet, Option.bind_assoc]
      congr 1
      funext o₁
      rw [← funext hRest]
      simp only [boolEach_cons]
      rw [← Option.bind_assoc, setEach_modify hApartHead, Option.bind_assoc]
    · rw [List.filter_cons_of_neg (by simpa using hBool), Simple.ofNumber, if_neg hBool]
      congr 1
      funext o₁
      exact hRest o₁

theorem slice_next (env : Env) (f : Frame) (n : Nat) :
    Frame.slice { f with start := f.stop, stop := f.stop + n } env = (env.input.drop f.stop).take n := by
  rw [Frame.slice, Nat.add_sub_cancel_left]

theorem Frame.stop_of_put {f f' : Frame} {root : Var} {path : Path} {o : PyVal} (h : f.put root path o = some f') :
    f'.stop = f.stop := by
  obtain ⟨_, _, _, _, rfl⟩ := Frame.put_eq_some h
  rfl

theorem runAll_next (env : Env) (n : Nat) (code : List Stmt) (f : Frame) :
    runAll env (.mark :: .advance (.bytes n) :: code) f =
      runAll env code { f with start := f.stop, stop := f.stop + n } := rfl

theorem fills_chunk {f : Frame} {y root : Var} {path : Path} {o : PyVal} (hy : f.Holds y root path o)
    (hs : f.Holds s.context root path o) {chunk : List (Path × Simple)} (hNamed : ∀ l ∈ chunk, l.1 ≠ [])
    (hPlaces : ∀ l ∈ chunk, ∃ w, o.at? l.1 = some w) (hApart : (chunk.map Prod.fst).Pairwise PyVal.Apart)
    (depth counter : Nat) :
    Fills (runAll env (.mark :: .advance (.bytes (itemsSize (chunkItems chunk))) ::
        .unpackInto (chunk.map fun l => ⟨y, l.1⟩) (.literal (reducePattern (chunk.map fun l => l.2.letter))) ::
        ((chunk.filter fun l => l.2 = .bool).map Prod.fst).map fun p => .assign (s.ref p) (.bool (s.ref p))) f)
      f depth counter root path (fun pairs => setEach pairs o)
      (readLeaves (chunk.map fun l => (l.1, .simple l.2)) (env.input.drop f.stop)) := by
  let f₁ : Frame := { f with start := f.stop, stop := f.stop + itemsSize (chunkItems chunk) }
  let bs := (env.input.drop f.stop).take (itemsSize (chunkItems chunk))
  have hUnpack : structUnpack (f₁.format (.literal (reducePattern (chunk.map fun l => l.2.letter)))) (f₁.slice env) =
      if bs.length = itemsSize (chunkItems chunk) then some (unpackItems (chunkItems chunk) bs) else none := by
    rw [slice_next, format_literal, structUnpack, formatItems_chunk, Option.bind_some]
  rw [runAll_next, runAll, Stmt.run, hUnpack, readLeaves_chunk, Scan.checked]
  by_cases hLength : bs.length = itemsSize (chunkItems chunk)
  · rw [if_pos hLength, if_pos hLength]
    let cells := chunk.zip (unpackItems (chunkItems chunk) bs)
    have hCount : chunk.length = (unpackItems (chunkItems chunk) bs).length := by
      rw [unpackItems_length, chunkItems, List.length_map]
    have hChunk : cells.map Prod.fst = chunk := List.map_fst_zip hCount.le
    have hValues : cells.map Prod.snd = unpackItems (chunkItems chunk) bs := List.map_snd_zip hCount.ge
    have hPaths : cells.map (fun cell => cell.1.1) = chunk.map Prod.fst := by rw [← hChunk, List.map_map]; rfl
    have hConvert := setEach_ofNumber (hPaths ▸ hApart) o
    have hMember : ∀ cell ∈ cells, cell.1 ∈ chunk := fun cell hCell => hChunk ▸ List.mem_map.mpr ⟨cell, hCell, rfl⟩
    have hAll : ∃ o', setEach (cells.map fun cell => (cell.1.1, cell.1.2.ofNumber cell.2)) o = some o' := by
      refine setEach_isSome ?_ ?_
      · intro pair hPair
        obtain ⟨cell, hCell, rfl⟩ := List.mem_map.mp hPair
        exact hPlaces cell.1 (hMember cell hCell)
      · rw [List.map_map]
        exact hPaths ▸ hApart
    obtain ⟨o', hAll⟩ := hAll
    rw [hAll] at hConvert
    obtain ⟨o₁, hNumbers, hBools⟩ := Option.bind_eq_some_iff.mp hConvert
    have hy₁ : f₁.Holds y root path o := hy.congr rfl
    have hs₁ : f₁.Holds s.context root path o := hs.congr rfl
    obtain ⟨f₂, hAssign, hPut₁⟩ := assignEach_put hy₁ (by
      intro pair hPair
      obtain ⟨cell, hCell, rfl⟩ := List.mem_map.mp hPair
      exact hNamed cell.1 (hMember cell hCell)) hNumbers
    have hFilter : (cells.filter fun cell => cell.1.2 = .bool).map (fun cell => cell.1.1) =
        (chunk.filter fun l => l.2 = .bool).map Prod.fst := by
      rw [← hChunk, List.filter_map, List.map_map]
      rfl
    rw [hFilter] at hBools
    obtain ⟨f₃, hRun, hPut₂⟩ := @execBools_put env s _ _ _ _ _ (hs₁.put hPut₁) _ (by
      intro p hp
      obtain ⟨l, hl, rfl⟩ := List.mem_map.mp hp
      exact hNamed l (List.mem_filter.mp hl).1) hBools
    have hPut : f₁.put root path o' = some f₃ := by rw [← Frame.put_put hPut₁, hPut₂]
    have hBecomes := (Frame.becomes_of_put hPut depth counter).of_vars (show f₁.vars = f.vars from rfl)
    rw [List.map_map, List.map_map] at hAssign
    have hRefs : chunk.map (fun l => (⟨y, l.1⟩ : Ref)) = cells.map fun cell => ⟨y, cell.1.1⟩ := by
      rw [← hChunk, List.map_map]
      rfl
    constructor
    · rintro _ _ ⟨⟩
      refine ⟨f₃, o', ?_, hAll, hBecomes, Frame.stop_of_put hPut⟩
      have hVars : assignEach (chunk.map fun l => ⟨y, l.1⟩) (unpackItems (chunkItems chunk) bs) f₁ = some f₂ := by
        rw [hRefs, ← hValues]
        exact hAssign
      show (raising .other (assignEach _ _ f₁)).bind _ = _
      rw [hVars]
      exact runAll_eq_ok.mpr hRun
    · rintro _ ⟨⟩
  · rw [if_neg hLength, if_neg hLength]
    exact ⟨by rintro _ _ ⟨⟩, by rintro _ ⟨⟩; rfl⟩

theorem name_eq_bool_iff (s : Simple) : s.name = str "bool" ↔ s = .bool := by cases s <;> decide

theorem reads_chunk {entries : List Entry} (hNonempty : entries ≠ [])
    (hSimple : ∀ e ∈ entries, ∃ simple, simpleOf e.1.1 = some simple ∧ e.2 = .simple simple) :
    ∃ code, simpleSerializer false s (entries.map Prod.fst) = some code ∧ ∀ counter, Reads env s entries counter code := by
  obtain ⟨chunk, hFields, hLeaves⟩ := exists_leafChunk hSimple
  have hPaths : entries.map (fun e => e.1.2) = chunk.map Prod.fst := by
    have := congrArg (List.map Prod.fst) hLeaves
    rwa [leavesOf, List.map_map, List.map_map] at this
  have hChunk : chunk ≠ [] := by
    rintro rfl
    exact hNonempty (List.map_eq_nil_iff.mp hFields)
  have hTypes : (chunk.map fun l => (l.2.name, l.1)).map Prod.fst = chunk.map fun l => l.2.name := by
    rw [List.map_map]
    rfl
  have hSize : calcsize (reducePattern (chunk.map fun l => l.2.letter)) = some (itemsSize (chunkItems chunk)) := by
    rw [calcsize, formatItems_chunk]
    rfl
  have hBools : ((chunk.map fun l => (l.2.name, l.1)).filter fun field => field.1 = str "bool").map (fun field =>
      Stmt.assign (s.ref field.2) (.bool (s.ref field.2))) =
      ((chunk.filter fun l => l.2 = .bool).map Prod.fst).map fun p => .assign (s.ref p) (.bool (s.ref p)) := by
    rw [List.filter_map, List.map_map, List.map_map]
    have hSame : ((fun field : Str × Path => decide (field.1 = str "bool")) ∘ fun l : Path × Simple => (l.2.name, l.1)) =
        fun l => decide (l.2 = .bool) := funext fun l => decide_eq_decide.mpr (name_eq_bool_iff l.2)
    rw [hSame]
    rfl
  rw [hFields, simpleSerializer, hTypes, computeStructPattern_names hChunk, Option.bind_some]
  dsimp only
  rw [if_neg Bool.false_ne_true, hSize, Option.map_some, hBools]
  refine ⟨_, rfl, fun counter f root path o hScope hPlaces => ?_⟩
  have hMember : ∀ l ∈ chunk, ∃ e ∈ entries, e.1.2 = l.1 := fun l hl =>
    List.mem_map.mp (hPaths ▸ List.mem_map.mpr ⟨l, hl, rfl⟩)
  have hNamed : ∀ l ∈ chunk, l.1 ≠ [] := by
    intro l hl
    obtain ⟨e, he, hPath⟩ := hMember l hl
    exact hPath ▸ hPlaces.named e he
  have hThere : ∀ l ∈ chunk, ∃ w, o.at? l.1 = some w := by
    intro l hl
    obtain ⟨e, he, hPath⟩ := hMember l hl
    obtain ⟨w, hw, _⟩ := hPlaces.places e he
    exact ⟨w, hPath ▸ hw⟩
  have hApart : (chunk.map Prod.fst).Pairwise PyVal.Apart := hPaths ▸ hPlaces.apart
  rw [hLeaves]
  split
  · rename_i hShort
    -- `_x` is another name for the object.
    have hWhole : o.at? [] = some o := rfl
    have hx : ¬ Kept s.depth counter .x := id
    have hName := hScope.exec_name env .x hWhole
    have hAgrees : Agrees s.depth counter f (f.bind .x (.place root (path ++ []))) := agrees_bind hx f _
    have hScope' := hScope.agrees hAgrees
    have hy : (f.bind .x (.place root (path ++ []))).Holds .x root path o := by
      refine ⟨?_, hScope'.object⟩
      rw [Frame.place, Frame.bind_vars]
      simp
    have hFills := @fills_chunk env s _ _ _ _ _ hy hScope'.holds chunk hNamed hThere hApart s.depth counter
    rw [List.map_map]
    rw [List.append_assoc]
    exact Fills.after hFills ((execAll_singleton ..).trans hName) rfl hAgrees hScope.keptRoot
  · have hFills := @fills_chunk env s _ _ _ _ _ hScope.holds hScope.holds chunk hNamed hThere hApart s.depth counter
    rw [List.map_map]
    exact hFills

end

/-! ## Fields that are no chunk -/

structure Loads (env : Env) (code : List Stmt) (f : Frame) (r : Ref) (m : Scan Fault UInt8 PyVal) : Prop where
  loads : ∀ v n, m (env.input.drop f.stop) = .ok (v, n) →
    ∃ f₁ : Frame, f₁.vars = f.vars ∧ f₁.stop = f.stop + n ∧ runAll env code f = raising .other (f₁.assign r v)
  raises : ∀ fault, m (env.input.drop f.stop) = .error fault → runAll env code f = .error fault

section

variable {env : Env} {s : Scope} {f : Frame} {r : Ref} {code : List Stmt}

theorem runAll_length (env : Env) (r : Ref) (isString : Bool) (code : List Stmt) (f : Frame) :
    runAll env (lenSerializer r isString false ++ code) f =
      (readLength (env.input.drop f.stop)).bind fun read =>
        runAll env code { f with start := f.stop, stop := f.stop + read.2, length := read.1 } := by
  let f₁ : Frame := { f with start := f.stop, stop := f.stop + 4 }
  let bs := (env.input.drop f.stop).take 4
  have hItems : formatItems (str "I") = some [.value (.int false 4)] := by decide
  have hUnpack : structUnpack (str "I") (f₁.slice env) = if bs.length = 4 then some [.int (ofLe bs)] else none := by
    rw [slice_next, structUnpack, hItems]
    have hTake : bs.take 4 = bs := List.take_of_length_le (List.length_take_le ..)
    show (if bs.length = 4 then some [(Code.int false 4).unpack (bs.take 4)] else none) = _
    rw [hTake]
    rfl
  show runAll env (.unpackLength :: code) f₁ = _
  rw [runAll, Stmt.run, hUnpack, readLength, Scan.checked]
  by_cases hLength : bs.length = 4
  · rw [if_pos hLength, if_pos hLength]
    rfl
  · rw [if_neg hLength, if_neg hLength]
    rfl

theorem length_cases {α : Type} (env : Env) (f : Frame) (code : List Stmt) (r : Ref) (isString : Bool)
    (g : Nat → Scan Fault UInt8 α) :
    (∃ fault, readLength.bind g (env.input.drop f.stop) = .error fault ∧
        runAll env (lenSerializer r isString false ++ code) f = .error fault) ∨
      ∃ (f₁ : Frame) (k : Nat), f₁.vars = f.vars ∧ f₁.stop = f.stop + k ∧
        runAll env (lenSerializer r isString false ++ code) f = runAll env code f₁ ∧
        readLength.bind g (env.input.drop f.stop) =
          (g f₁.length (env.input.drop f₁.stop)).map fun read => (read.1, k + read.2) := by
  rw [runAll_length]
  cases hRead : readLength (env.input.drop f.stop) with
  | error fault => exact .inl ⟨fault, Scan.bind_of_error hRead g, rfl⟩
  | ok read =>
    refine .inr ⟨{ f with start := f.stop, stop := f.stop + read.2, length := read.1 }, read.2, rfl, rfl, rfl, ?_⟩
    rw [Scan.bind_of_ok hRead, List.drop_drop]

theorem Loads.length {g : Nat → Scan Fault UInt8 PyVal}
    (h : ∀ f₁ : Frame, f₁.vars = f.vars → Loads env code f₁ r (g f₁.length)) (y : Ref) (isString : Bool) :
    Loads env (lenSerializer y isString false ++ code) f r (readLength.bind g) := by
  rcases length_cases env f code y isString g with ⟨fault, hRead, hRun⟩ | ⟨f₁, k, hVars, hStop, hRun, hRead⟩
  · constructor
    · intro v n hAll
      rw [hRead] at hAll
      cases hAll
    · intro fault' hAll
      rw [hRead] at hAll
      cases hAll
      exact hRun
  · have hRest := h f₁ hVars
    constructor
    · intro v n hAll
      obtain ⟨⟨v', m⟩, hValue, hEq⟩ := exists_of_map (hRead.symm.trans hAll)
      cases hEq
      obtain ⟨f₂, hVars₂, hStop₂, hLoad⟩ := hRest.loads v' m hValue
      exact ⟨f₂, hVars₂.trans hVars, by rw [hStop₂, hStop, Nat.add_assoc], by rw [hRun, hLoad]⟩
    · intro fault hAll
      rw [hRun]
      exact hRest.raises fault (error_of_map (hRead.symm.trans hAll))

theorem Loads.next {size : Nat} {e : Expr} {m : Scan Fault UInt8 PyVal}
    (h : (e.run env { f with start := f.stop, stop := f.stop + size }).map (fun v => (v, size)) = m (env.input.drop f.stop))
    (hCode : ∀ more, runAll env (code ++ more) f = runAll env more { f with start := f.stop, stop := f.stop + size })
    (r : Ref) : Loads env (code ++ [.assign r e]) f r m := by
  let f₁ : Frame := { f with start := f.stop, stop := f.stop + size }
  have hRun : runAll env (code ++ [.assign r e]) f = (e.run env f₁).bind fun v => raising .other (f₁.assign r v) := by
    rw [hCode, runAll_singleton, Stmt.run]
  constructor
  · intro v n hRead
    rw [← h] at hRead
    obtain ⟨v', hValue, hEq⟩ := exists_of_map hRead
    cases hEq
    refine ⟨f₁, rfl, rfl, ?_⟩
    rw [hRun, hValue]
    rfl
  · intro fault hRead
    rw [← h] at hRead
    rw [hRun]
    cases hValue : e.run env f₁ with
    | error fault' =>
      rw [hValue] at hRead
      cases hRead
      rfl
    | ok v =>
      rw [hValue] at hRead
      cases hRead

theorem loads_text (env : Env) (f : Frame) (r : Ref) :
    Loads env [.mark, .advance .length, .assign r .decoded] f r (readText f.length) := by
  refine @Loads.next env f [.mark, .advance .length] f.length .decoded _ ?_ (fun more => rfl) r
  rw [Expr.run, Expr.eval, slice_next, readText]
  · cases decodeUtf8 ((env.input.drop f.stop).take f.length) <;> rfl
  · rintro _ ⟨⟩

theorem loads_string (env : Env) (f : Frame) (inContext : Bool) (r : Ref) :
    Loads env (stringSerializer (str "string") none inContext r false) f r Ty.string.read := by
  have hCode : stringSerializer (str "string") none inContext r false =
      lenSerializer r true false ++ [.mark, .advance .length, .assign r .decoded] := by
    cases inContext <;> rfl
  rw [hCode]
  exact Loads.length (fun f₁ _ => loads_text env f₁ r) r true

theorem loads_slice (env : Env) (f : Frame) (r : Ref) :
    Loads env [.mark, .advance .length, .assign r .slice] f r ((Scan.slice f.length).map .bytes) := by
  refine @Loads.next env f [.mark, .advance .length] f.length .slice _ ?_ (fun more => rfl) r
  rw [Expr.run, Expr.eval, slice_next]
  · rfl
  · rintro _ ⟨⟩

theorem loads_fixedSlice (env : Env) (f : Frame) (r : Ref) (n : Nat) :
    Loads env [.mark, .advance (.bytes n), .assign r .slice] f r ((Scan.slice n).map .bytes) := by
  refine @Loads.next env f [.mark, .advance (.bytes n)] n .slice _ ?_ (fun more => rfl) r
  rw [Expr.run, Expr.eval, slice_next]
  · rfl
  · rintro _ ⟨⟩

/-- `struct.unpack` of an array, before any conversion. -/
def readNumbers (length : Option Nat) (s : Simple) (n : Nat) : Scan Fault UInt8 PyVal :=
  let items := List.replicate (length.elim n reducedCount) (Item.value s.code)
  .checked .struct (n * s.code.size) (itemsSize items) fun bs => .tuple (unpackItems items bs)

theorem unpacked_run {fmt : Fmt} {items : List Item} (hItems : formatItems (f.format fmt) = some items) (size : Nat) :
    ((Expr.unpacked fmt).run env { f with start := f.stop, stop := f.stop + size }).map (fun v => (v, size)) =
      Scan.checked Fault.struct size (itemsSize items) (fun bs => PyVal.tuple (unpackItems items bs))
        (env.input.drop f.stop) := by
  have hFormat : Frame.format { f with start := f.stop, stop := f.stop + size } fmt = f.format fmt := by cases fmt <;> rfl
  rw [Expr.run, hFormat, slice_next, structUnpack, hItems, Option.bind_some, Scan.checked]
  split <;> rfl

theorem loads_numbers (env : Env) (f : Frame) (r : Ref) (s : Simple) :
    Loads env [.setPattern s.letter, .mark, .advance .ofPattern, .assign r (.unpacked .pattern)] f r
      (readNumbers none s f.length) := by
  let f₀ : Frame := { f with pattern := decimal f.length ++ [s.letter] }
  have hItems : formatItems f₀.pattern = some (List.replicate f.length (.value s.code)) := formatItems_array f.length s
  have hSize : calcsize f₀.pattern = some (f.length * s.code.size) := by
    rw [calcsize, hItems, Option.map_some, itemsSize_replicate]
    rfl
  have hCode (more : List Stmt) : runAll env ([.mark, .advance .ofPattern] ++ more) f₀ =
      runAll env more { f₀ with start := f₀.stop, stop := f₀.stop + f.length * s.code.size } := by
    show ((raising .struct (calcsize f₀.pattern)).map _).bind (runAll env more) = _
    rw [hSize]
    rfl
  have hLoads := Loads.next (@unpacked_run env f₀ .pattern _ hItems _) hCode r
  exact ⟨hLoads.loads, hLoads.raises⟩

theorem loads_fixedNumbers (env : Env) (f : Frame) (r : Ref) (s : Simple) (n : Nat) :
    Loads env [.mark, .advance (.bytes (n * s.code.size)), .assign r (.unpacked (.literal (reducePattern (decimal n ++ [s.letter]))))]
      f r (readNumbers (some n) s n) := by
  refine @Loads.next env f [.mark, .advance (.bytes (n * s.code.size))] _ _ _ ?_ (fun more => rfl) r
  refine unpacked_run ?_ _
  rw [format_literal, formatItems_reducePattern_counted n (letter_not_digit s.ofLetter_letter).1 (letter_ne_percent s),
    countedItems_letter s.ofLetter_letter]
  rfl

theorem Loads.fills {root : Var} {path q : Path} {o : PyVal} {m : Scan Fault UInt8 PyVal} (h : Loads env code f (s.ref q) m)
    (hHolds : f.Holds s.context root path o) (hNamed : q ≠ []) (hThere : ∃ w, o.at? q = some w) (depth counter : Nat) :
    Fills (runAll env code f) f depth counter root path (fun v => PyVal.set q v o) (m (env.input.drop f.stop)) where
  reads := by
    intro v n hRead
    obtain ⟨f₁, hVars, hStop, hRun⟩ := h.loads v n hRead
    obtain ⟨w, hw⟩ := hThere
    have hSome : ∃ o', PyVal.set q v o = some o' := PyVal.modify_isSome hw rfl
    obtain ⟨o', hSet⟩ := hSome
    have hHolds₁ := hHolds.congr hVars
    obtain ⟨f', hPut⟩ := hHolds₁.exists_put o'
    have hAssign : f₁.assign (s.ref q) v = some f' := by
      rw [Scope.ref, hHolds₁.assign_eq hNamed, hSet, Option.bind_some, hPut]
    have hBecomes := (Frame.becomes_of_put hPut depth counter).of_vars hVars
    exact ⟨f', o', by rw [hRun, hAssign]; rfl, hSet, hBecomes, by rw [Frame.stop_of_put hPut, hStop]⟩
  raises := h.raises

theorem Fills.map {α β : Type} {run : Except Fault Frame} {depth counter : Nat} {root : Var} {path : Path}
    {change : α → Option PyVal} {m : Scan Fault UInt8 α} {bs : Bytes}
    (h : Fills run f depth counter root path change (m bs)) {g : α → β} {change' : β → Option PyVal}
    (hChange : ∀ a, change' (g a) = change a) : Fills run f depth counter root path change' (m.map g bs) where
  reads := by
    intro b n hRead
    obtain ⟨a, hFirst, rfl⟩ := Scan.map_eq_ok hRead
    obtain ⟨f', o', hRun, hSet, hBecomes, hStop⟩ := h.reads a n hFirst
    exact ⟨f', o', hRun, by rw [hChange, hSet], hBecomes, hStop⟩
  raises := fun fault hRead => h.raises fault (Scan.map_eq_error hRead)

theorem readLeaves_singleton (path : Path) (t : Ty) : readLeaves [(path, t)] = t.read.map fun v => [(path, v)] := by
  rw [readLeaves, readLeaves, Scan.map₂_pure]

theorem reads_of_fills {type : Str} {path : Path} {t : Ty} {counter : Nat}
    (h : ∀ (f : Frame) (root : Var) (p : Path) (o : PyVal), f.Scoped s counter root p o → path ≠ [] →
      ∀ w, o.at? path = some w → t.Instance w →
      Fills (runAll env code f) f s.depth counter root p (fun v => PyVal.set path v o) (t.read (env.input.drop f.stop))) :
    Reads env s [((type, path), t)] counter code := by
  intro f root p o hScope hPlaces
  obtain ⟨w, hw, hInstance⟩ := hPlaces.places _ List.mem_cons_self
  have hFills := h f root p o hScope (hPlaces.named _ List.mem_cons_self) w hw hInstance
  have hLeaves : leavesOf [((type, path), t)] = [(path, t)] := rfl
  rw [hLeaves, readLeaves_singleton]
  refine hFills.map fun v => ?_
  show (PyVal.set path v o).bind some = PyVal.set path v o
  exact Option.bind_fun_some _

theorem reads_of_loads {type : Str} {path : Path} {t : Ty} (h : ∀ f, Loads env code f (s.ref path) t.read) (counter : Nat) :
    Reads env s [((type, path), t)] counter code :=
  reads_of_fills fun f _ _ _ hScope hNamed w hw _ => (h f).fills hScope.holds hNamed ⟨w, hw⟩ s.depth counter

theorem reads_string {path : Path} (counter : Nat) :
    Reads env s [((str "string", path), .string)] counter
      (stringSerializer (str "string") none true (s.ref path) false) :=
  reads_of_loads (fun f => loads_string env f true (s.ref path)) counter

theorem reads_bytes {type base : Str} {path : Path} {t : Ty} (hBase : isBytes base = true) (hByte : t.isByte = true)
    (length : Option Nat) (counter : Nat) :
    Reads env s [((type, path), .array length t)] counter (stringSerializer base length true (s.ref path) false) := by
  refine reads_of_loads (fun f => ?_) counter
  have hRead : (Ty.array length t).read = (readCount length).bind fun n => (Scan.slice n).map .bytes := by
    rw [Ty.read]
    exact congrArg (readCount length).bind (funext fun n => if_pos hByte)
  rw [hRead]
  cases length with
  | none =>
    have hCode : stringSerializer base none true (s.ref path) false =
        lenSerializer (s.ref path) true false ++ [.mark, .advance .length, .assign (s.ref path) .slice] := by
      simp [stringSerializer, hBase]
    rw [hCode]
    exact Loads.length (fun f₁ _ => loads_slice env f₁ (s.ref path)) (s.ref path) true
  | some n =>
    have hCode : stringSerializer base (some n) true (s.ref path) false =
        [.mark, .advance (.bytes n), .assign (s.ref path) .slice] := by
      simp [stringSerializer, hBase]
    rw [hCode, readCount, Scan.pure_bind]
    exact loads_fixedSlice env f (s.ref path) n

end

end XcRos.Genpy
