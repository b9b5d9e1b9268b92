import XcRos.Genpy.ReadFields

/-! # Reading arrays and embedded messages

Arrays of simple values are unpacked at once, and the elements of others are read into a variable one by one.
An embedded message is read in a scope of its own.
-/

namespace XcRos.Genpy

open XcRos.Foundation XcRos.Msg

section

variable {env : Env} {s : Scope} {f : Frame} {code : List Stmt}

/-! ## Simple values -/

theorem readTuple_eq (length : Option Nat) (s : Simple) (n : Nat) :
    readTuple length s n = (readNumbers length s n).map fun v => if s = .bool then .iterator else v := by
  funext bs
  rw [readTuple, readNumbers, Scan.map, Scan.checked, Scan.checked]
  split <;> rfl

theorem read_simpleArray (length : Option Nat) {s : Simple} (hByte : (Ty.simple s).isByte = false) :
    (Ty.array length (.simple s)).read =
      ((readCount length).bind (readNumbers length s)).map fun v => if s = .bool then .iterator else v := by
  rw [Ty.read, Scan.bind_map]
  refine congrArg (readCount length).bind (funext fun n => ?_)
  rw [hByte, if_neg Bool.false_ne_true, ← readTuple_eq]
  rfl

theorem Fills.mapBool {depth counter : Nat} {root : Var} {path q : Path} {o : PyVal} {m : Scan Fault UInt8 PyVal}
    (h : Fills (runAll env code f) f depth counter root path (fun v => PyVal.set q v o) (m (env.input.drop f.stop)))
    (hTuple : ∀ bs v n, m bs = .ok (v, n) → ∃ vs, v = .tuple vs) (hHolds : f.Holds s.context root path o)
    (hContext : Kept depth counter s.context) (hNamed : q ≠ []) :
    Fills (runAll env (code ++ [.assign (s.ref q) (.mapBool (s.ref q))]) f) f depth counter root path
      (fun v => PyVal.set q v o) (m.map (fun _ => .iterator) (env.input.drop f.stop)) where
  reads := by
    intro w n hRead
    obtain ⟨v, hFirst, rfl⟩ := Scan.map_eq_ok hRead
    obtain ⟨vs, rfl⟩ := hTuple _ v n hFirst
    obtain ⟨f₁, o₁, hRun, hSet, hBecomes, hStop⟩ := h.reads _ n hFirst
    have hHolds₁ := hHolds.becomes hBecomes hContext
    have hGet : f₁.get (s.ref q) = some (.tuple vs) := (hHolds₁.get q).trans (Frame.at?_set hSet)
    have hTwice : (PyVal.set q (.tuple vs) o).bind (PyVal.set q .iterator) = PyVal.set q .iterator o :=
      PyVal.modify_modify q o
    rw [hSet, Option.bind_some] at hTwice
    have hSome : ∃ o', PyVal.set q .iterator o₁ = some o' := PyVal.modify_isSome (Frame.at?_set hSet) rfl
    obtain ⟨o', hIterator⟩ := hSome
    obtain ⟨f', hPut⟩ := hHolds₁.exists_put o'
    have hExec : (Stmt.assign (s.ref q) (.mapBool (s.ref q))).exec env f₁ = some f' := by
      rw [Stmt.exec, Expr.eval, hGet]
      show f₁.assign (s.ref q) .iterator = some f'
      rw [Scope.ref, hHolds₁.assign_eq hNamed, hIterator, Option.bind_some, hPut]
    refine ⟨f', o', ?_, hTwice ▸ hIterator, hBecomes.trans (Frame.becomes_of_put hPut depth counter), ?_⟩
    · rw [runAll_append, hRun]
      exact (runAll_singleton ..).trans (Stmt.run_eq_ok.mpr hExec)
    · rw [Frame.stop_of_put hPut, hStop]
  raises := by
    intro fault hRead
    rw [runAll_append, h.raises fault (Scan.map_eq_error hRead)]
    rfl

theorem tuple_of_readNumbers {length : Option Nat} {s : Simple} {bs : Bytes} {v : PyVal} {n : Nat}
    (h : (readCount length).bind (readNumbers length s) bs = .ok (v, n)) : ∃ vs, v = .tuple vs := by
  obtain ⟨⟨count, i⟩, _, hRest⟩ := exists_of_bind h
  obtain ⟨⟨w, j⟩, hNumbers, hEq⟩ := exists_of_map hRest
  cases hEq
  rw [readNumbers, Scan.checked] at hNumbers
  split at hNumbers
  · cases hNumbers
    exact ⟨_, rfl⟩
  · cases hNumbers

theorem reads_numbers {type : Str} {path : Path} {simple : Simple} (hByte : (Ty.simple simple).isByte = false)
    {length : Option Nat} (h : ∀ f, Loads env code f (s.ref path) ((readCount length).bind (readNumbers length simple)))
    (counter : Nat) :
    Reads env s [((type, path), .array length (.simple simple))] counter
      (code ++ if simple = .bool then [.assign (s.ref path) (.mapBool (s.ref path))] else []) := by
  by_cases hBool : simple = .bool
  · rw [if_pos hBool]
    refine reads_of_fills fun f root p o hScope hNamed w hw _ => ?_
    rw [read_simpleArray length hByte]
    simp only [if_pos hBool]
    have hFills := (h f).fills hScope.holds hNamed ⟨w, hw⟩ s.depth counter
    exact hFills.mapBool (fun _ _ _ => tuple_of_readNumbers) hScope.holds hScope.keptContext hNamed
  · rw [if_neg hBool, List.append_nil]
    refine reads_of_loads (fun f => ?_) counter
    rw [read_simpleArray length hByte]
    simp only [if_neg hBool]
    exact (Scan.map_id ((readCount length).bind (readNumbers length simple))).symm ▸ h f

theorem reads_simpleArray {type base : Str} {simple : Simple} {path : Path} (hSimple : simpleOf base = some simple)
    (hByte : isBytes base = false) (arity : Arity) (ctx : MsgContext)
    (sub : Scope → Str → Fields → Nat → Option (List Stmt × Nat)) (package : Str) (counter : Nat) :
    Emits (arraySerializer ctx false sub package base arity s path counter) counter
      (Reads env s [((type, path), .array (arrayLen arity) (.simple simple))] counter) := by
  have hName := name_of_simpleOf hSimple
  have hNotByte : (Ty.simple simple).isByte = false := by
    rw [← hByte, ← hName]
    cases simple <;> rfl
  have hConvert : (if ¬ false = true ∧ base = str "bool" then [Stmt.assign (s.ref path) (.mapBool (s.ref path))] else []) =
      if simple = .bool then [.assign (s.ref path) (.mapBool (s.ref path))] else [] := by
    refine if_congr ?_ rfl rfl
    rw [← hName, name_eq_bool_iff]
    exact and_iff_right Bool.false_ne_true
  rw [arraySerializer, hByte, if_neg Bool.false_ne_true, hSimple]
  dsimp only
  rw [hConvert]
  cases hLength : arrayLen arity with
  | none =>
    have hLoads (f : Frame) : Loads env (lenSerializer (s.ref path) false false ++
        [.setPattern simple.letter, .mark, .advance .ofPattern, .assign (s.ref path) (.unpacked .pattern)]) f (s.ref path)
        ((readCount none).bind (readNumbers none simple)) :=
      Loads.length (fun f₁ _ => loads_numbers env f₁ (s.ref path) simple) (s.ref path) false
    exact Emits.of_eq (reads_numbers hNotByte hLoads counter)
  | some n =>
    have hSize : calcsize (decimal n ++ [simple.letter]) = some (n * simple.code.size) := by
      rw [calcsize, formatItems_array, Option.map_some, itemsSize_replicate]
      rfl
    have hLoads (f : Frame) : Loads env [.mark, .advance (.bytes (n * simple.code.size)),
        .assign (s.ref path) (.unpacked (.literal (reducePattern (decimal n ++ [simple.letter]))))] f (s.ref path)
        ((readCount (some n)).bind (readNumbers (some n) simple)) := by
      rw [readCount, Scan.pure_bind]
      exact loads_fixedNumbers env f (s.ref path) simple n
    dsimp only
    rw [if_neg Bool.false_ne_true, hSize]
    exact Emits.of_eq (reads_numbers hNotByte hLoads counter)

/-! ## Elements one by one -/

theorem Fills.length {α : Type} {depth counter : Nat} {root : Var} {path : Path} {change : α → Option PyVal}
    {g : Nat → Scan Fault UInt8 α}
    (h : ∀ f₁ : Frame, f₁.vars = f.vars → Fills (runAll env code f₁) f₁ depth counter root path change
      (g f₁.length (env.input.drop f₁.stop))) (r : Ref) (isString : Bool) :
    Fills (runAll env (lenSerializer r isString false ++ code) f) f depth counter root path change
      (readLength.bind g (env.input.drop f.stop)) := by
  rcases length_cases env f code r isString g with ⟨fault, hRead, hRun⟩ | ⟨f₁, k, hVars, hStop, hRun, hRead⟩
  · rw [hRead, hRun]
    exact ⟨by rintro _ _ ⟨⟩, by rintro _ ⟨⟩; rfl⟩
  · have hRest := h f₁ hVars
    rw [hRead, hRun]
    constructor
    · intro a n hAll
      obtain ⟨⟨a', m⟩, hValue, hEq⟩ := exists_of_map hAll
      cases hEq
      obtain ⟨f₂, o', hCode, hChange, hBecomes, hStop₂⟩ := hRest.reads a' m hValue
      exact ⟨f₂, o', hCode, hChange, hBecomes.of_vars hVars, by rw [hStop₂, hStop, Nat.add_assoc]⟩
    · exact fun fault hAll => hRest.raises fault (error_of_map hAll)

structure LoadsElement (env : Env) (depth counter : Nat) (m : Scan Fault UInt8 PyVal) (code : List Stmt) (f : Frame) : Prop where
  loads : ∀ v n, m (env.input.drop f.stop) = .ok (v, n) → ∃ f', runAll env code f = .ok f' ∧ Agrees depth counter f f' ∧
    f'.valueOf (.val depth) = some v ∧ f'.stop = f.stop + n
  raises : ∀ fault, m (env.input.drop f.stop) = .error fault → runAll env code f = .error fault

theorem fills_rounds {counter : Nat} {m : Scan Fault UInt8 PyVal} (h : ∀ f, LoadsElement env s.depth counter m code f)
    (rounds : Nat) {f : Frame} {root : Var} {path q : Path} {o : PyVal} {vs : List PyVal}
    (hScope : f.Scoped s counter root path o) (hList : o.at? q = some (.list vs)) :
    Fills ((List.replicate rounds ()).foldlM (fun f _ => runAll env (code ++ [.append (s.ref q) (.val s.depth)]) f) f) f
      s.depth counter root path (fun ws => PyVal.set q (.list (vs ++ ws)) o) (m.each rounds (env.input.drop f.stop)) := by
  induction rounds generalizing f o vs with
  | zero =>
    constructor
    · rintro _ _ ⟨⟩
      have hSame : PyVal.set q (.list vs) o = some o := PyVal.modify_same hList rfl
      refine ⟨f, o, rfl, ?_, hScope.holds.becomes_same s.depth counter, rfl⟩
      rw [List.append_nil, hSame]
    · rintro _ ⟨⟩
  | succ rounds ih =>
    rw [List.replicate_succ, List.foldlM_cons, Scan.each, Scan.map₂]
    show Fills ((runAll env _ f).bind _) f s.depth counter root path _ _
    cases hRead : m (env.input.drop f.stop) with
    | error fault =>
      rw [Scan.bind_of_error hRead, runAll_append, (h f).raises fault hRead]
      exact ⟨by rintro _ _ ⟨⟩, by rintro _ ⟨⟩; rfl⟩
    | ok read =>
      obtain ⟨v, n⟩ := read
      obtain ⟨f₁, hRun, hAgrees, hValue, hStop⟩ := (h f).loads v n hRead
      have hScope₁ := hScope.agrees hAgrees
      have hGrown : ∃ o₁, PyVal.set q (.list (vs ++ [v])) o = some o₁ := PyVal.modify_isSome hList rfl
      obtain ⟨o₁, hSet⟩ := hGrown
      obtain ⟨f₂, hPut⟩ := hScope₁.holds.exists_put o₁
      have hAppend : (Stmt.append (s.ref q) (.val s.depth)).exec env f₁ = some f₂ := by
        rw [Stmt.exec, hValue, Option.bind_some, Scope.ref, hScope₁.holds.modify_eq]
        rw [PyVal.modify_eq_set hList]
        show (PyVal.set q (.list (vs ++ [v])) o).bind (f₁.put root path) = some f₂
        rw [hSet, Option.bind_some, hPut]
      have hBody : runAll env (code ++ [.append (s.ref q) (.val s.depth)]) f = .ok f₂ := by
        rw [runAll_append, hRun]
        exact (runAll_singleton ..).trans (Stmt.run_eq_ok.mpr hAppend)
      have hBecomes := (Frame.becomes_of_put hPut s.depth counter).of_agrees hAgrees hScope.keptRoot
      have hAhead : env.input.drop f₂.stop = (env.input.drop f.stop).drop n := by
        rw [Frame.stop_of_put hPut, hStop, List.drop_drop]
      have hRest := ih (hScope.becomes hBecomes) (Frame.at?_set hSet)
      rw [hAhead] at hRest
      rw [hBody, Scan.bind_of_ok hRead]
      constructor
      · intro ws total hAll
        obtain ⟨⟨ws', k⟩, hMore, hEq⟩ := exists_of_map hAll
        obtain ⟨tail, hTail, rfl⟩ := Scan.map_eq_ok hMore
        cases hEq
        obtain ⟨f', o', hRun', hSet', hBecomes', hStop'⟩ := hRest.reads tail k hTail
        have hTwice : (PyVal.set q (.list (vs ++ [v])) o).bind (PyVal.set q (.list (vs ++ [v] ++ tail))) =
            PyVal.set q (.list (vs ++ [v] ++ tail)) o := PyVal.modify_modify q o
        rw [hSet, Option.bind_some, hSet', List.append_assoc, List.singleton_append] at hTwice
        refine ⟨f', o', hRun', hTwice.symm, hBecomes.trans hBecomes', ?_⟩
        rw [hStop', Frame.stop_of_put hPut, hStop, Nat.add_assoc]
      · exact fun fault hAll => hRest.raises fault (Scan.map_eq_error (error_of_map hAll))

theorem fills_list {counter : Nat} {m : Scan Fault UInt8 PyVal} (h : ∀ f, LoadsElement env s.depth counter m code f)
    {f : Frame} {root : Var} {path q : Path} {o : PyVal} (hScope : f.Scoped s counter root path o) (hNamed : q ≠ [])
    (hThere : ∃ w, o.at? q = some w) (count : Option Nat) :
    Fills (runAll env [.assign (s.ref q) .emptyList, .forRange count (code ++ [.append (s.ref q) (.val s.depth)])] f) f
      s.depth counter root path (fun v => PyVal.set q v o)
      ((m.each (count.getD f.length)).map .list (env.input.drop f.stop)) := by
  obtain ⟨w, hw⟩ := hThere
  have hSome : ∃ o₁, PyVal.set q (.list []) o = some o₁ := PyVal.modify_isSome hw rfl
  obtain ⟨o₁, hSet⟩ := hSome
  obtain ⟨f₁, hPut⟩ := hScope.holds.exists_put o₁
  have hAssign : (Stmt.assign (s.ref q) .emptyList).exec env f = some f₁ := by
    show f.assign (s.ref q) (.list []) = some f₁
    rw [Scope.ref, hScope.holds.assign_eq hNamed, hSet, Option.bind_some, hPut]
  have hBecomes := Frame.becomes_of_put hPut s.depth counter
  have hRounds := fills_rounds h (count.getD f.length) (hScope.becomes hBecomes) (Frame.at?_set hSet)
  have hLength : f₁.length = f.length := by
    obtain ⟨_, _, _, _, rfl⟩ := Frame.put_eq_some hPut
    rfl
  rw [Frame.stop_of_put hPut] at hRounds
  rw [runAll, Stmt.run_eq_ok.mpr hAssign]
  show Fills (runAll env [.forRange count _] f₁) f s.depth counter root path _ _
  rw [runAll_singleton, Stmt.run, hLength]
  constructor
  · intro v n hAll
    obtain ⟨ws, hEach, rfl⟩ := Scan.map_eq_ok hAll
    obtain ⟨f', o', hRun, hSet', hBecomes', hStop⟩ := hRounds.reads ws n hEach
    have hTwice : (PyVal.set q (.list []) o).bind (PyVal.set q (.list ([] ++ ws))) = PyVal.set q (.list ([] ++ ws)) o :=
      PyVal.modify_modify q o
    rw [hSet, Option.bind_some, hSet', List.nil_append] at hTwice
    exact ⟨f', o', hRun, hTwice.symm, hBecomes.trans hBecomes', by rw [hStop, Frame.stop_of_put hPut]⟩
  · exact fun fault hAll => hRounds.raises fault (Scan.map_eq_error hAll)

theorem reads_loop {type : Str} {path : Path} {t : Ty} (hByte : t.isByte = false) (hSimple : t.simple? = none)
    {counter : Nat} (h : ∀ f, LoadsElement env s.depth counter t.read code f) (length : Option Nat) :
    Reads env s [((type, path), .array length t)] counter
      ((if length.isNone then lenSerializer (s.ref path) false false else []) ++
        [.assign (s.ref path) .emptyList, .forRange length (code ++ [.append (s.ref path) (.val s.depth)])]) := by
  have hRead : (Ty.array length t).read = (readCount length).bind fun n => (t.read.each n).map .list := by
    rw [Ty.read]
    refine congrArg (readCount length).bind (funext fun n => ?_)
    rw [hByte, if_neg Bool.false_ne_true, hSimple]
  refine reads_of_fills fun f root p o hScope hNamed w hw _ => ?_
  rw [hRead]
  cases length with
  | none =>
    refine Fills.length (fun f₁ hVars => ?_) (s.ref path) false
    have hAgrees : Agrees s.depth counter f f₁ := fun y _ => congrFun hVars y
    exact fills_list h (hScope.agrees hAgrees) hNamed ⟨w, hw⟩ none
  | some n =>
    rw [readCount, Scan.pure_bind]
    exact fills_list h hScope hNamed ⟨w, hw⟩ (some n)

theorem Loads.element {depth : Nat} {m : Scan Fault UInt8 PyVal} (h : Loads env code f ⟨.val depth, []⟩ m) (counter : Nat) :
    LoadsElement env depth counter m code f where
  loads := by
    intro v n hRead
    obtain ⟨f₁, hVars, hStop, hRun⟩ := h.loads v n hRead
    refine ⟨f₁.bind (.val depth) (.value v), hRun, fun y hy => ?_, f₁.bind_valueOf _ v, hStop⟩
    rw [agrees_bind (not_kept_val depth counter) f₁ (.value v) y hy, hVars]
  raises := h.raises

/-! ## Embedded messages -/

/-- In every frame where the scope is an instance with these members, the code reads them. -/
def ReadsMembers (env : Env) (s : Scope) (members : Members) (counter : Nat) (code : List Stmt) : Prop :=
  ∀ (f : Frame) (root : Var) (path : Path) (cls : Str) (olds : List (Str × PyVal)),
    f.Scoped s counter root path (.obj cls olds) → members.Instance olds →
    Fills (runAll env code f) f s.depth counter root path (fun attrs => some (.obj cls attrs))
      (members.read (env.input.drop f.stop))

/-- `sub` emits code for embedded specifications that reads their messages. -/
def SubReads (env : Env) (resolves : MsgSpec → Option Members)
    (sub : Scope → Str → Fields → Nat → Option (List Stmt × Nat)) : Prop :=
  ∀ spec members, resolves spec = some members → members.slots.Nodup → ∀ s counter,
    Emits (sub s spec.package (makePythonSafe (specFields spec)) counter) counter (ReadsMembers env s members counter)

def Constructs (env : Env) (ctx : MsgContext) (resolves : MsgSpec → Option Members) : Prop :=
  ∀ base spec members, ctx.getRegistered base = some spec → resolves spec = some members →
    ∃ olds, env.classes base = some (.obj base olds) ∧ members.Instance olds

theorem ReadsMembers.element {members : Members} {counter : Nat} {base : Str} {olds : List (Str × PyVal)} {depth : Nat}
    (h : ReadsMembers env ⟨.val depth, depth + 1⟩ members counter code) (hClass : env.classes base = some (.obj base olds))
    (hInstance : members.Instance olds) (f : Frame) :
    LoadsElement env depth counter (Ty.message base members).read
      ([.assign ⟨.val depth, []⟩ (.new (some base))] ++ code) f := by
  let f₁ := f.bind (.val depth) (.value (.obj base olds))
  have hNew : execAll env [.assign ⟨.val depth, []⟩ (.new (some base))] f = some f₁ := by
    rw [execAll_singleton, Stmt.exec, Expr.eval, hClass]
    rfl
  have hScope : f₁.Scoped ⟨.val depth, depth + 1⟩ counter (.val depth) [] (.obj base olds) :=
    Frame.scoped_value (f.bind_vars _ _) (Nat.lt_succ_self depth)
  have hFills := h f₁ (.val depth) [] base olds hScope hInstance
  have hRun : runAll env ([.assign ⟨.val depth, []⟩ (.new (some base))] ++ code) f = runAll env code f₁ := by
    rw [runAll_append, runAll_eq_ok.mpr hNew]
    rfl
  rw [Ty.read]
  constructor
  · intro v n hRead
    obtain ⟨attrs, hMembers, rfl⟩ := Scan.map_eq_ok hRead
    obtain ⟨f', o', hCode, hObject, hBecomes, hStop⟩ := hFills.reads attrs n hMembers
    cases hObject
    obtain ⟨v, v', _, hSet, hAfter⟩ := hBecomes.object
    cases hSet
    refine ⟨f', by rw [hRun, hCode], fun y hy => ?_, hAfter, hStop⟩
    have hNe : y ≠ .val depth := hy.ne (not_kept_val depth counter)
    rw [hBecomes.kept y (hy.mono (Nat.le_succ depth) (Nat.le_refl counter)) hNe, f.bind_vars_ne hNe]
  · intro fault hRead
    rw [hRun]
    exact hFills.raises fault (Scan.map_eq_error hRead)

theorem reads_message {type : Str} {path : Path} {cls : Str} {members : Members} {counter : Nat}
    (hCode : ReadsMembers env ⟨.v (counter + 1), s.depth + 1⟩ members (counter + 1) code) :
    Reads env s [((type, path), .message cls members)] counter (.name (.v (counter + 1)) (s.ref path) :: code) := by
  refine reads_of_fills fun f root p o hScope hNamed w hw hInstance => ?_
  obtain ⟨olds, rfl, hOlds⟩ := hInstance
  have hv := not_kept_v s.depth counter
  have hKept : Kept (s.depth + 1) (counter + 1) (.v (counter + 1)) := Nat.le_refl _
  have hScope₁ := hScope.named hv hw hKept (Nat.le_succ _) (Nat.le_succ _)
  have hFills := hCode _ root _ cls olds hScope₁ hOlds
  have hName := hScope.exec_name env (.v (counter + 1)) hw
  have hAgrees : Agrees s.depth counter f (f.bind (.v (counter + 1)) (.place root (p ++ path))) := agrees_bind hv f _
  rw [Ty.read, runAll, Stmt.run_eq_ok.mpr hName]
  show Fills (runAll env code _) f s.depth counter root p _ _
  constructor
  · intro v n hRead
    obtain ⟨attrs, hMembers, rfl⟩ := Scan.map_eq_ok hRead
    obtain ⟨f', o', hRun, hObject, hBecomes, hStop⟩ := hFills.reads attrs n hMembers
    cases hObject
    have hSome : ∃ o', PyVal.set path (.obj cls attrs) o = some o' := PyVal.modify_isSome hw rfl
    obtain ⟨o', hSet⟩ := hSome
    have hWhole := (hScope.agrees hAgrees).holds
    have hPart := (hBecomes.mono (Nat.le_succ s.depth) (Nat.le_succ counter)).part hWhole hSet
    exact ⟨f', o', hRun, hSet, hPart.of_agrees hAgrees hScope.keptRoot, hStop⟩
  · exact fun fault hRead => hFills.raises fault (Scan.map_eq_error hRead)

variable {ctx : MsgContext} {resolves : MsgSpec → Option Members}
  {sub : Scope → Str → Fields → Nat → Option (List Stmt × Nat)} {package : Str}

theorem emits_readArray (hSub : SubReads env resolves sub) (hNew : Constructs env ctx resolves) {type base : Str}
    {path : Path} {t : Ty} (hBase : ResolvedBase resolves ctx base t) (hBracket : '[' ∉ base) (arity : Arity) (counter : Nat) :
    Emits (arraySerializer ctx false sub package base arity s path counter) counter
      (Reads env s [((type, path), .array (arrayLen arity) t)] counter) := by
  have hBytes := isBytes_iff hBase
  cases hByte : t.isByte with
  | true =>
    rw [hByte] at hBytes
    rw [arraySerializer, hBytes, if_pos rfl]
    exact Emits.of_eq (reads_bytes hBytes hByte (arrayLen arity) counter)
  | false =>
    rw [hByte] at hBytes
    cases hBase with
    | simple hSimple => exact reads_simpleArray hSimple hBytes arity ctx sub package counter
    | string =>
      rw [arraySerializer, hBytes, if_neg Bool.false_ne_true, simpleOf_string]
      refine Emits.of_eq (reads_loop hByte rfl (fun f => ?_) (arrayLen arity))
      exact (loads_string env f false ⟨.val s.depth, []⟩).element counter
    | @message base spec members hSimple hString hName hSpec hMembers hSlots =>
      obtain ⟨code, counter', hCode, hCounter, hReads⟩ :=
        hSub spec members hMembers hSlots ⟨.val s.depth, s.depth + 1⟩ counter
      obtain ⟨olds, hClass, hInstance⟩ := hNew base spec members hSpec hMembers
      rw [arraySerializer, hBytes, if_neg Bool.false_ne_true, hSimple]
      dsimp only
      rw [if_neg hString, hSpec, Option.bind_some, hCode, Option.bind_some]
      dsimp only
      rw [if_neg Bool.false_ne_true, if_neg hString, computeConstructor_registered hBracket hName hSpec]
      exact ⟨_, counter', rfl, hCounter, reads_loop hByte rfl (hReads.element hClass hInstance) (arrayLen arity)⟩

end

end XcRos.Genpy
