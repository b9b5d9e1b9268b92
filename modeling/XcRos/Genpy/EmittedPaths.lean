import XcRos.Genpy.Accesses
import XcRos.Genpy.Emit

/-! # Attributes in the code for fields

The code that the generators emit for fields goes through these fields, and below them through the slots
of the messages there.
-/

namespace XcRos.Genpy

open XcRos.Foundation XcRos.Msg

def Silent (y : Var) (code : List Stmt) : Prop :=
  ∀ vars, (accessesAll code vars).1 = [] ∧ ∀ z, z ≠ y → (accessesAll code vars).2 z = vars z

section

variable {ctx : MsgContext} {s : Scope} {type base : Str} {path : Path} {counter : Nat} {y : Var} {code : List Stmt}

theorem Silent.append {rest : List Stmt} (h : Silent y code) (hRest : Silent y rest) : Silent y (code ++ rest) := by
  intro vars
  rw [accessesAll_append]
  obtain ⟨hNone, hKept⟩ := h vars
  obtain ⟨hRestNone, hRestKept⟩ := hRest (accessesAll code vars).2
  exact ⟨by rw [hNone, hRestNone]; rfl, fun z hz => (hRestKept z hz).trans (hKept z hz)⟩

theorem Silent.same (h : Silent y code) {depth : Nat} (hy : ¬ Kept depth counter y) (vars : Origins) :
    Same depth counter vars (accessesAll code vars).2 :=
  fun z hz => (h vars).2 z (hz.ne hy)

theorem silent_nil (y : Var) : Silent y [] := fun _ => ⟨rfl, fun _ _ => rfl⟩

theorem silent_lenSerializer (y : Var) (isString serialize : Bool) : Silent y (lenSerializer ⟨y, []⟩ isString serialize) := by
  intro vars
  cases serialize <;> cases isString <;> exact ⟨rfl, fun _ _ => rfl⟩

/-! ## Strings -/

theorem stringSerializer_read (base : Str) (length : Option Nat) (inContext : Bool) (place : Ref) :
    ∃ front amount e, stringSerializer base length inContext place false =
        front ++ [.mark, .advance amount, .assign place e] ∧
      (∀ vars, accessesAll front vars = ([], vars)) ∧ ∀ vars, Expr.accesses vars e = [] := by
  refine ⟨if isBytes base ∧ length.isSome then [] else lenSerializer place true false, ?_⟩
  have hFront : ∀ vars,
      accessesAll (if isBytes base ∧ length.isSome then [] else lenSerializer place true false) vars = ([], vars) := by
    intro vars
    split <;> rfl
  cases length with
  | none => exact ⟨.length, if isBytes base then .slice else .decoded, by simp [stringSerializer], hFront, fun _ => by split <;> rfl⟩
  | some n => exact ⟨.bytes n, .slice, by simp [stringSerializer], hFront, fun _ => rfl⟩

theorem silent_string (y : Var) (base : Str) (length : Option Nat) (serialize : Bool) :
    Silent y (stringSerializer base length false ⟨y, []⟩ serialize) := by
  cases serialize with
  | true =>
    have hLength : Silent y (if isBytes base ∧ length.isSome then [] else lenSerializer ⟨y, []⟩ true true) := by
      split
      · exact silent_nil y
      · exact silent_lenSerializer y true true
    refine hLength.append fun vars => ?_
    rw [if_pos rfl]
    split
    · cases length <;> exact ⟨rfl, fun _ _ => rfl⟩
    · exact ⟨rfl, fun z hz => Function.update_of_ne hz ..⟩
  | false =>
    intro vars
    obtain ⟨front, amount, e, hCode, hFront, he⟩ := stringSerializer_read base length false ⟨y, []⟩
    rw [hCode, accessesAll_append, hFront, accessesAll, accessesAll, accessesAll, accessesAll, Stmt.accesses, Stmt.accesses,
      Stmt.accesses, he]
    exact ⟨rfl, fun z hz => Function.update_of_ne hz ..⟩

theorem follows_once {code : List Stmt}
    (h : ∀ vars, (accessesAll code vars).1 = [(vars s.context).behind (attrs path)] ∧
      Same s.depth counter vars (accessesAll code vars).2) : Follows ctx s [(type, path)] counter code := by
  refine follows_field (fun vars a ha => ?_) (fun vars => ?_) fun vars => (h vars).2
  · rw [(h vars).1] at ha
    exact List.mem_singleton.mp ha
  · rw [(h vars).1]
    exact List.mem_singleton_self _

theorem accesses_scope_ref (hPath : path ≠ []) (vars : Origins) :
    (s.ref path).accesses vars = [(vars s.context).behind (attrs path)] :=
  Ref.accesses_of_ne_nil hPath vars

theorem follows_string (hPath : path ≠ []) (base : Str) (length : Option Nat) (serialize : Bool) :
    Follows ctx s [(type, path)] counter (stringSerializer base length true (s.ref path) serialize) := by
  refine follows_once fun vars => ?_
  cases serialize with
  | true =>
    -- `_x` stands for the field
    have hBody := silent_string .x base length true
    have hCode : stringSerializer base length true (s.ref path) true =
        .name .x (s.ref path) :: stringSerializer base length false ⟨.x, []⟩ true := rfl
    rw [hCode, accessesAll, Stmt.accesses, (hBody _).1, accesses_scope_ref hPath]
    exact ⟨rfl, (same_update id vars _).trans (hBody.same id _)⟩
  | false =>
    obtain ⟨front, amount, e, hCode, hFront, he⟩ := stringSerializer_read base length true (s.ref path)
    rw [hCode, accessesAll_append, hFront, accessesAll, accessesAll, accessesAll, accessesAll, Stmt.accesses, Stmt.accesses,
      Stmt.accesses, he, accesses_scope_ref hPath, Ref.assigned_of_ne_nil hPath]
    exact ⟨rfl, fun _ _ => rfl⟩

/-! ## Arrays -/

theorem accesses_lenSerializer (hPath : path ≠ []) (serialize : Bool) (vars : Origins) :
    accessesAll (lenSerializer (s.ref path) false serialize) vars =
      (if serialize then [(vars s.context).behind (attrs path)] else [], vars) := by
  cases serialize with
  | true =>
    rw [lenSerializer, if_pos rfl, if_neg Bool.false_ne_true, accessesAll, Stmt.accesses, accesses_scope_ref hPath]
    rfl
  | false => rfl

theorem accesses_front (hPath : path ≠ []) (variable_ serialize : Bool) (vars : Origins) :
    (∀ a ∈ (accessesAll (if variable_ then lenSerializer (s.ref path) false serialize else []) vars).1,
      a = (vars s.context).behind (attrs path)) ∧
    (accessesAll (if variable_ then lenSerializer (s.ref path) false serialize else []) vars).2 = vars := by
  cases variable_ with
  | true =>
    rw [if_pos rfl, accesses_lenSerializer hPath]
    refine ⟨fun a ha => ?_, rfl⟩
    cases serialize with
    | true => exact List.mem_singleton.mp ha
    | false => cases ha
  | false => exact ⟨fun a ha => absurd ha List.not_mem_nil, rfl⟩

theorem Follows.behind_front {front : List Stmt} (h : Follows ctx s [(type, path)] counter code)
    (hFront : ∀ vars, (∀ a ∈ (accessesAll front vars).1, a = (vars s.context).behind (attrs path)) ∧
      (accessesAll front vars).2 = vars) : Follows ctx s [(type, path)] counter (front ++ code) where
  within := by
    intro vars a ha
    rw [accessesAll_append, (hFront vars).2] at ha
    obtain ha | ha := List.mem_append.mp ha
    · have hField : (type, path) ∈ [(type, path)] := List.mem_singleton_self _
      rw [(hFront vars).1 a ha]
      exact reaches_field hField
    · exact h.within vars a ha
  reached := by
    intro vars field hField
    rw [accessesAll_append, (hFront vars).2]
    exact List.mem_append_right _ (h.reached vars field hField)
  same := by
    intro vars
    rw [accessesAll_append, (hFront vars).2]
    exact h.same vars

theorem follows_values
    (h : ∀ vars, (∀ a ∈ (accessesAll code vars).1, a = (vars s.context).behind (attrs path)) ∧
      (vars s.context).behind (attrs path) ∈ (accessesAll code vars).1 ∧ (accessesAll code vars).2 = vars) :
    Follows ctx s [(type, path)] counter code := by
  refine follows_field (fun vars => (h vars).1) (fun vars => (h vars).2.1) fun vars => ?_
  rw [(h vars).2.2]
  exact fun _ _ => rfl

variable {serialize : Bool} {sub : Scope → Str → Fields → Nat → Option (List Stmt × Nat)} {package : Str} {counter' : Nat}

theorem follows_simpleArray (hPath : path ≠ []) (hBytes : isBytes base = false) {simple : Simple}
    (hSimple : simpleOf base = some simple) {arity : Arity}
    (h : arraySerializer ctx serialize sub package base arity s path counter = some (code, counter')) :
    Follows ctx s [(type, path)] counter code ∧ counter ≤ counter' := by
  have hRef : ∀ vars, (s.ref path).accesses vars = [(vars s.context).behind (attrs path)] := accesses_scope_ref hPath
  have hAssigned : ∀ vars o, (s.ref path).assigned vars o = vars := Ref.assigned_of_ne_nil hPath
  rw [arraySerializer, hBytes, if_neg Bool.false_ne_true, hSimple] at h
  dsimp only at h
  cases hLength : arrayLen arity with
  | none =>
    rw [hLength] at h
    cases h
    rw [List.append_assoc]
    refine ⟨.behind_front (follows_values fun vars => ?_) (accesses_front hPath true serialize), Nat.le_refl _⟩
    cases serialize <;> by_cases hBool : base = str "bool" <;>
      simp [hBool, accessesAll, Stmt.accesses, Arg.accesses, Expr.accesses, hRef, hAssigned]
  | some n =>
    rw [hLength] at h
    cases serialize with
    | true =>
      cases h
      refine ⟨follows_values fun vars => ?_, Nat.le_refl _⟩
      simp [packStmt, accessesAll, Stmt.accesses, Arg.accesses, hRef]
    | false =>
      obtain ⟨size, -, hCode⟩ := Option.map_eq_some_iff.mp h
      cases hCode
      refine ⟨follows_values fun vars => ?_, Nat.le_refl _⟩
      by_cases hBool : base = str "bool" <;>
        simp [hBool, accessesAll, Stmt.accesses, Expr.accesses, hRef, hAssigned]

theorem follows_forEach (hPath : path ≠ []) (hContext : Kept s.depth counter s.context) (hVar : ¬ Kept s.depth counter y)
    (hWithin : ∀ vars, vars y = (vars s.context).behind (attrs path ++ [.element]) →
      ∀ a ∈ (accessesAll code vars).1, Reaches ctx (vars s.context) [(type, path)] a)
    (hSame : ∀ vars, Same s.depth counter vars (accessesAll code vars).2) :
    Follows ctx s [(type, path)] counter [.forEach y (s.ref path) code] := by
  have hCode : ∀ vars, accessesAll [.forEach y (s.ref path) code] vars =
      ((vars s.context).behind (attrs path) ::
          (accessesAll code (Function.update vars y ((vars s.context).behind (attrs path ++ [.element])))).1,
        (accessesAll code (Function.update vars y ((vars s.context).behind (attrs path ++ [.element])))).2) := by
    intro vars
    have hOrigin : ((s.ref path).origin vars).behind [.element] = (vars s.context).behind (attrs path ++ [.element]) :=
      Origin.behind_behind ..
    rw [accessesAll, Stmt.accesses, accessesAll, hOrigin, accesses_scope_ref hPath]
    simp only [List.singleton_append, List.append_nil]
  constructor
  · intro vars a ha
    rw [hCode] at ha
    have hKept : Function.update vars y ((vars s.context).behind (attrs path ++ [.element])) s.context = vars s.context :=
      Function.update_of_ne (hContext.ne hVar) ..
    obtain rfl | ha := List.mem_cons.mp ha
    · exact reaches_field (List.mem_singleton_self (type, path))
    · have hInner := hWithin _ (by rw [Function.update_self, hKept]) a ha
      rwa [hKept] at hInner
  · intro vars field hField
    obtain rfl := List.mem_singleton.mp hField
    rw [hCode]
    exact List.mem_cons_self
  · intro vars
    rw [hCode]
    exact (same_update hVar vars _).trans (hSame _)

theorem follows_forRange (hPath : path ≠ []) (hContext : Kept s.depth counter s.context) (count : Option Nat) (y : Var)
    (hWithin : ∀ vars, ∀ a ∈ (accessesAll code vars).1, NamesNew ctx a)
    (hSame : ∀ vars, Same s.depth counter vars (accessesAll code vars).2) :
    Follows ctx s [(type, path)] counter
      [.assign (s.ref path) .emptyList, .forRange count (code ++ [.append (s.ref path) y])] := by
  have hCode : ∀ vars, accessesAll [.assign (s.ref path) .emptyList, .forRange count (code ++ [.append (s.ref path) y])] vars =
      ((vars s.context).behind (attrs path) :: (accessesAll code vars).1 ++ [(vars s.context).behind (attrs path)],
        (accessesAll code vars).2) := by
    intro vars
    have hAssign : Stmt.accesses (.assign (s.ref path) .emptyList) vars = ([(vars s.context).behind (attrs path)], vars) := by
      rw [Stmt.accesses, accesses_scope_ref hPath, Ref.assigned_of_ne_nil hPath]
      rfl
    have hAppend : accessesAll [.append (s.ref path) y] (accessesAll code vars).2 =
        ([(vars s.context).behind (attrs path)], (accessesAll code vars).2) := by
      rw [accessesAll, Stmt.accesses, accessesAll, accesses_scope_ref hPath, hSame vars _ hContext]
      rfl
    rw [accessesAll, hAssign, accessesAll, Stmt.accesses, accessesAll, accessesAll_append, hAppend]
    simp only [List.cons_append, List.nil_append, List.append_nil]
  constructor
  · intro vars a ha
    rw [hCode, List.cons_append] at ha
    have hField : (type, path) ∈ [(type, path)] := List.mem_singleton_self _
    obtain rfl | ha := List.mem_cons.mp ha
    · exact reaches_field hField
    · obtain ha | ha := List.mem_append.mp ha
      · exact .inr (hWithin vars a ha)
      · obtain rfl := List.mem_singleton.mp ha
        exact reaches_field hField
  · intro vars field hField
    obtain rfl := List.mem_singleton.mp hField
    rw [hCode, List.cons_append]
    exact List.mem_cons_self
  · intro vars
    rw [hCode]
    exact hSame vars

def SubFollows (ctx : MsgContext) (sub : Scope → Str → Fields → Nat → Option (List Stmt × Nat)) : Prop :=
  ∀ s package fields counter code counter', Kept s.depth counter s.context → ProperFields fields →
    sub s package fields counter = some (code, counter') → Follows ctx s fields counter code ∧ counter ≤ counter'

theorem NamedType.message (h : NamedType base) (hSimple : simpleOf base = none) (hString : base ≠ str "string") :
    (base = str "time" ∨ base = str "duration") ∨ '/' ∈ base := by
  have hBuiltins : ∀ name ∈ builtinTypes,
      (simpleOf name).isSome ∨ name = str "string" ∨ name = str "time" ∨ name = str "duration" := by decide
  obtain hBuiltin | hSlash := h
  · obtain hSome | hText | hTime := hBuiltins base hBuiltin
    · rw [hSimple] at hSome
      cases hSome
    · exact absurd hText hString
    · exact .inl hTime
  · exact .inr hSlash

theorem follows_array (hCtx : ProperContext ctx) (hSub : SubFollows ctx sub) (hPath : path ≠ [])
    (hContext : Kept s.depth counter s.context) {arity : Arity} (hParse : parseType type = some (base, arity))
    (hArity : arity ≠ .scalar) (hNamed : NamedType base)
    (h : arraySerializer ctx serialize sub package base arity s path counter = some (code, counter')) :
    Follows ctx s [(type, path)] counter code ∧ counter ≤ counter' := by
  cases hBytes : isBytes base with
  | true =>
    rw [arraySerializer, hBytes, if_pos rfl] at h
    cases h
    exact ⟨follows_string hPath base _ serialize, Nat.le_refl _⟩
  | false =>
    cases hSimple : simpleOf base with
    | some simple => exact follows_simpleArray hPath hBytes hSimple h
    | none =>
      have hBracket : '[' ∉ base := parseType_base hParse ▸ not_mem_bareMsgType type
      have hVar := not_kept_val s.depth counter
      rw [arraySerializer, hBytes, if_neg Bool.false_ne_true, hSimple] at h
      dsimp only at h
      obtain ⟨⟨inner, innerCounter⟩, hInner, hRest⟩ := Option.bind_eq_some_iff.mp h
      dsimp only at hRest
      by_cases hString : base = str "string"
      · rw [if_pos hString] at hInner
        cases hInner
        have hSilent := silent_string (.val s.depth) base none serialize
        cases serialize with
        | true =>
          rw [if_pos rfl] at hRest
          cases hRest
          refine ⟨.behind_front (follows_forEach hPath hContext hVar (fun vars _ a ha => ?_) (hSilent.same hVar)) ?_, Nat.le_refl _⟩
          · rw [(hSilent vars).1] at ha
            cases ha
          · exact accesses_front hPath _ true
        | false =>
          rw [if_neg Bool.false_ne_true, if_pos hString] at hRest
          cases hRest
          refine ⟨.behind_front (follows_forRange hPath hContext _ _ (fun vars a ha => ?_) (hSilent.same hVar)) ?_, Nat.le_refl _⟩
          · rw [List.nil_append, (hSilent vars).1] at ha
            cases ha
          · exact accesses_front hPath _ false
      · rw [if_neg hString] at hInner
        obtain ⟨spec, hSpec, hCode⟩ := Option.bind_eq_some_iff.mp hInner
        have hKept : Kept (s.depth + 1) counter (.val s.depth) := Nat.lt_succ_self s.depth
        have hFields := properFields_slots (hCtx base spec hSpec)
        obtain ⟨hFollows, hLe⟩ := hSub ⟨.val s.depth, s.depth + 1⟩ spec.package (slots spec) counter inner innerCounter hKept hFields hCode
        have hSame : ∀ vars, Same s.depth counter vars (accessesAll inner vars).2 :=
          fun vars => (hFollows.same vars).mono (Nat.le_succ _) (Nat.le_refl _)
        cases serialize with
        | true =>
          rw [if_pos rfl] at hRest
          cases hRest
          refine ⟨.behind_front (follows_forEach hPath hContext hVar (fun vars hElement a ha => ?_) hSame) ?_, hLe⟩
          · have hReaches := hFollows.within vars a ha
            rw [hElement] at hReaches
            exact hReaches.element hParse hArity hBracket hSpec
          · exact accesses_front hPath _ true
        | false =>
          rw [if_neg Bool.false_ne_true, if_neg hString,
            computeConstructor_registered hBracket (hNamed.message hSimple hString) hSpec] at hRest
          cases hRest
          refine ⟨.behind_front (follows_forRange hPath hContext _ _ (fun vars a ha => ?_) fun vars => ?_) ?_, hLe⟩
          · have hReaches := hFollows.within (Function.update vars (.val s.depth) ⟨.new base, []⟩) a ha
            rw [Function.update_self] at hReaches
            exact hReaches.new hSpec
          · exact (same_update hVar vars _).trans (hSame _)
          · exact accesses_front hPath _ false

/-! ## Embedded messages -/

theorem complex_lookup {resolved : Str} (hName : (type = str "time" ∨ type = str "duration") ∨ '/' ∈ type)
    (h : (if isSpecial type then some type else (computePkgType package type).map fun r => fullType r.1 r.2) = some resolved) :
    resolved = type := by
  split at h
  · exact (Option.some.inj h).symm
  · rename_i hSpecial
    rw [isSpecial_iff hName] at hSpecial
    have hSlash := hName.resolve_left hSpecial
    obtain ⟨⟨pkg, name⟩, hPkg, rfl⟩ := Option.map_eq_some_iff.mp h
    rw [computePkgType] at hPkg
    split at hPkg
    · rename_i part hSplit
      have hLength := split_length '/' type
      rw [hSplit, List.length_singleton] at hLength
      have := List.count_pos_iff.mpr hSlash
      omega
    · rename_i hSplit
      cases hPkg
      exact (eq_of_split hSplit).symm
    · cases hPkg

theorem follows_complex (hCtx : ProperContext ctx) (hSub : SubFollows ctx sub) (hPath : path ≠ [])
    (hContext : Kept s.depth counter s.context) (hNamed : NamedType (bareMsgType type)) (hSimple : isSimple type = false)
    (h : complexSerializer ctx serialize sub package type s path counter = some (code, counter')) :
    Follows ctx s [(type, path)] counter code ∧ counter ≤ counter' := by
  obtain ⟨⟨base, arity⟩, hParse, hRest⟩ := Option.bind_eq_some_iff.mp h
  rw [← parseType_base hParse] at hNamed
  dsimp only at hRest
  split at hRest
  · rename_i hArity
    exact follows_array hCtx hSub hPath hContext hParse hArity hNamed hRest
  · rename_i hScalar
    rw [not_not] at hScalar
    rw [hScalar] at hParse
    obtain ⟨rfl, hBracket⟩ := parseType_scalar hParse
    split at hRest
    · cases hRest
      exact ⟨follows_string hPath base none serialize, Nat.le_refl _⟩
    · rename_i hString
      have hNone : simpleOf base = none := Option.not_isSome_iff_eq_none.mp (Bool.eq_false_iff.mp hSimple)
      obtain ⟨resolved, hResolved, hLookup⟩ := Option.bind_eq_some_iff.mp hRest
      obtain rfl := complex_lookup (hNamed.message hNone hString) hResolved
      obtain ⟨spec, hSpec, hCode⟩ := Option.bind_eq_some_iff.mp hLookup
      obtain ⟨⟨inner, innerCounter⟩, hInner, hEq⟩ := Option.map_eq_some_iff.mp hCode
      cases hEq
      have hVar := not_kept_v s.depth counter
      have hKept : Kept (s.depth + 1) (counter + 1) (.v (counter + 1)) := Nat.le_refl (counter + 1)
      have hFields := properFields_slots (hCtx resolved spec hSpec)
      obtain ⟨hFollows, hLe⟩ := hSub ⟨.v (counter + 1), s.depth + 1⟩ spec.package (slots spec) (counter + 1) inner innerCounter hKept hFields hInner
      have hSame : ∀ vars, Same s.depth counter vars (accessesAll inner vars).2 :=
        fun vars => (hFollows.same vars).mono (Nat.le_succ _) (Nat.le_succ _)
      have hCode : ∀ vars, accessesAll (.name (.v (counter + 1)) (s.ref path) :: inner) vars =
          ((vars s.context).behind (attrs path) ::
              (accessesAll inner (Function.update vars (.v (counter + 1)) ((vars s.context).behind (attrs path)))).1,
            (accessesAll inner (Function.update vars (.v (counter + 1)) ((vars s.context).behind (attrs path)))).2) := by
        intro vars
        rw [accessesAll, Stmt.accesses, accesses_scope_ref hPath]
        rfl
      refine ⟨⟨fun vars a ha => ?_, fun vars field hField => ?_, fun vars => ?_⟩, Nat.le_of_succ_le hLe⟩
      · rw [hCode] at ha
        obtain rfl | ha := List.mem_cons.mp ha
        · exact reaches_field (List.mem_singleton_self (resolved, path))
        · have hReaches := hFollows.within _ a ha
          rw [Function.update_self] at hReaches
          exact hReaches.message hBracket hSpec
      · obtain rfl := List.mem_singleton.mp hField
        rw [hCode]
        exact List.mem_cons_self
      · rw [hCode]
        exact (same_update hVar vars _).trans (hSame _)

/-! ## Lists of fields -/

theorem accesses_refs {fields : Fields} (hFields : ProperFields fields) {vars : Origins} {o : Origin} (hVar : vars y = o) :
    (fields.map fun field => (⟨y, field.2⟩ : Ref)).flatMap (Ref.accesses vars) =
      fields.map fun field => o.behind (attrs field.2) := by
  rw [List.flatMap_map, List.map_eq_flatMap]
  refine List.flatMap_congr fun field hField => ?_
  have hRef : Ref.accesses vars ⟨y, field.2⟩ = [Ref.origin vars ⟨y, field.2⟩] := Ref.accesses_of_ne_nil (hFields field hField).1 vars
  rw [hRef, Ref.origin, hVar]

theorem accesses_bools {fields : Fields} (hFields : ProperFields fields) (vars : Origins) :
    (∀ a ∈ (accessesAll (fields.map fun field => .assign (s.ref field.2) (.bool (s.ref field.2))) vars).1,
      ∃ field ∈ fields, a = (vars s.context).behind (attrs field.2)) ∧
    (accessesAll (fields.map fun field => .assign (s.ref field.2) (.bool (s.ref field.2))) vars).2 = vars := by
  induction fields with
  | nil => exact ⟨fun a ha => absurd ha List.not_mem_nil, rfl⟩
  | cons field fields ih =>
    obtain ⟨hEach, hVars⟩ := ih fun field hField => hFields field (List.mem_cons_of_mem _ hField)
    have hPath := (hFields field List.mem_cons_self).1
    have hAssign : Stmt.accesses (.assign (s.ref field.2) (.bool (s.ref field.2))) vars =
        ([(vars s.context).behind (attrs field.2), (vars s.context).behind (attrs field.2)], vars) := by
      rw [Stmt.accesses, Expr.accesses, accesses_scope_ref hPath, Ref.assigned_of_ne_nil hPath]
      rfl
    rw [List.map_cons, accessesAll, hAssign]
    refine ⟨fun a ha => ?_, hVars⟩
    obtain rfl | ha := List.mem_cons.mp ha
    · exact ⟨field, List.mem_cons_self, rfl⟩
    · obtain rfl | ha := List.mem_cons.mp ha
      · exact ⟨field, List.mem_cons_self, rfl⟩
      · obtain ⟨other, hOther, hEq⟩ := hEach a ha
        exact ⟨other, List.mem_cons_of_mem _ hOther, hEq⟩

theorem exists_chunk {fields : Fields} (hFields : ProperFields fields)
    (h : simpleSerializer serialize s fields = some code) :
    ∃ (body : Var → List Stmt) (tail : List Stmt),
      code = (if 1 < fields.length then .name .x (s.ref []) :: body .x else body s.context) ++ tail ∧
      (∀ y vars, accessesAll (body y) vars = (fields.map fun field => (vars y).behind (attrs field.2), vars)) ∧
      ∀ vars, (∀ a ∈ (accessesAll tail vars).1, ∃ field ∈ fields, a = (vars s.context).behind (attrs field.2)) ∧
        (accessesAll tail vars).2 = vars := by
  obtain ⟨pattern, -, hRest⟩ := Option.bind_eq_some_iff.mp h
  cases serialize with
  | true =>
    rw [if_pos rfl] at hRest
    cases hRest
    refine ⟨fun y => [packStmt pattern ((fields.map fun field => (⟨y, field.2⟩ : Ref)).map .value)], [], ?_, fun y vars => ?_,
      fun vars => ⟨fun a ha => absurd ha List.not_mem_nil, rfl⟩⟩
    · split <;> rfl
    · rw [accessesAll, packStmt, Stmt.accesses, List.flatMap_map]
      have hArgs : (fields.map fun field => (⟨y, field.2⟩ : Ref)).flatMap (fun r => Arg.accesses vars (.value r)) =
          fields.map fun field => (vars y).behind (attrs field.2) := accesses_refs hFields rfl
      rw [hArgs, accessesAll, List.append_nil]
  | false =>
    obtain ⟨size, -, hCode⟩ := Option.map_eq_some_iff.mp hRest
    cases hCode
    refine ⟨fun y => [.mark, .advance (.bytes size),
        .unpackInto (fields.map fun field => (⟨y, field.2⟩ : Ref)) (.literal (reducePattern pattern))],
      (fields.filter fun field => field.1 = str "bool").map fun field => .assign (s.ref field.2) (.bool (s.ref field.2)),
      ?_, fun y vars => ?_, fun vars => ?_⟩
    · split <;> rfl
    · rw [accessesAll, accessesAll, accessesAll, Stmt.accesses, Stmt.accesses, Stmt.accesses, accesses_refs hFields rfl]
      simp only [accessesAll, List.nil_append, List.append_nil]
    · have hBools : ProperFields (fields.filter fun field => field.1 = str "bool") :=
        fun field hField => hFields field (List.mem_of_mem_filter hField)
      obtain ⟨hEach, hVars⟩ := accesses_bools (s := s) hBools vars
      refine ⟨fun a ha => ?_, hVars⟩
      obtain ⟨field, hField, hEq⟩ := hEach a ha
      exact ⟨field, List.mem_of_mem_filter hField, hEq⟩

theorem follows_chunk {fields : Fields} (hFields : ProperFields fields) (hContext : Kept s.depth counter s.context)
    (h : simpleSerializer serialize s fields = some code) : Follows ctx s fields counter code := by
  obtain ⟨body, tail, rfl, hBody, hTail⟩ := exists_chunk hFields h
  have hx : ¬ Kept s.depth counter .x := id
  have hFront : ∀ vars, ∃ vars', accessesAll (if 1 < fields.length then .name .x (s.ref []) :: body .x else body s.context) vars =
      (fields.map fun field => (vars s.context).behind (attrs field.2), vars') ∧ Same s.depth counter vars vars' := by
    intro vars
    split
    · rw [accessesAll, Stmt.accesses, hBody]
      dsimp only
      have hScope : (s.ref []).origin vars = vars s.context := Origin.behind_nil _
      rw [Function.update_self, hScope]
      exact ⟨_, rfl, same_update hx vars _⟩
    · exact ⟨vars, hBody s.context vars, fun _ _ => rfl⟩
  refine follows_each (fun vars a ha => ?_) (fun vars field hField => ?_) fun vars => ?_
  all_goals
    obtain ⟨vars', hCode, hSame⟩ := hFront vars
    obtain ⟨hEach, hVars⟩ := hTail vars'
    rw [hSame _ hContext] at hEach
  · rw [accessesAll_append, hCode] at ha
    obtain ha | ha := List.mem_append.mp ha
    · obtain ⟨field, hField, rfl⟩ := List.mem_map.mp ha
      exact ⟨field, hField, rfl⟩
    · exact hEach a ha
  · rw [accessesAll_append, hCode]
    exact List.mem_append_left _ (List.mem_map.mpr ⟨field, hField, rfl⟩)
  · rw [accessesAll_append, hCode]
    dsimp only
    rw [hVars]
    exact hSame

theorem follows_simples {fields : Fields} (hFields : ProperFields fields) (hContext : Kept s.depth counter s.context)
    (h : simpleSerializers serialize s fields = some code) : Follows ctx s fields counter code := by
  obtain ⟨codes, hCodes, rfl⟩ := Option.map_eq_some_iff.mp h
  have hParts : ∀ (parts : List Fields) (codes : List (List Stmt)), (∀ part ∈ parts, ProperFields part) →
      parts.mapM (simpleSerializer serialize s) = some codes → Follows ctx s parts.flatten counter codes.flatten := by
    intro parts
    induction parts with
    | nil =>
      rintro codes - ⟨⟩
      exact follows_nil
    | cons part parts ih =>
      intro codes hProper hEach
      rw [List.mapM_cons] at hEach
      obtain ⟨front, hFront, hMore⟩ := Option.bind_eq_some_iff.mp hEach
      obtain ⟨rest, hRest, hEq⟩ := Option.bind_eq_some_iff.mp hMore
      cases hEq
      have hHead : Follows ctx s part counter front := follows_chunk (hProper part List.mem_cons_self) hContext hFront
      have hTail := ih rest (fun part hPart => hProper part (List.mem_cons_of_mem _ hPart)) hRest
      exact hHead.append hContext (Nat.le_refl _) hTail
  rw [← chunks_flatten fields]
  refine hParts (chunks fields) codes (fun part hPart field hField => ?_) hCodes
  exact hFields field (chunks_flatten fields ▸ List.mem_flatten.mpr ⟨part, hPart, hField⟩)

theorem follows_serializeFields (hCtx : ProperContext ctx) (hSub : SubFollows ctx sub) {fields : Fields}
    (hContext : Kept s.depth counter s.context) {simples : Fields} (hSimples : ProperFields simples) (hFields : ProperFields fields)
    (h : serializeFields serialize s
      (fun type path counter => complexSerializer ctx serialize sub package type s path counter) simples fields counter =
        some (code, counter')) : Follows ctx s (simples ++ fields) counter code ∧ counter ≤ counter' := by
  induction fields generalizing simples counter code counter' with
  | nil =>
    obtain ⟨front, hFront, hEq⟩ := Option.map_eq_some_iff.mp h
    cases hEq
    rw [List.append_nil]
    exact ⟨follows_simples hSimples hContext hFront, Nat.le_refl _⟩
  | cons field fields ih =>
    obtain ⟨type, path⟩ := field
    have hHead := hFields (type, path) List.mem_cons_self
    have hTail : ProperFields fields := fun field hField => hFields field (List.mem_cons_of_mem _ hField)
    rw [serializeFields] at h
    split at h
    · have hMore : ProperFields (simples ++ [(type, path)]) := by
        intro field hField
        obtain hField | hField := List.mem_append.mp hField
        · exact hSimples field hField
        · obtain rfl := List.mem_singleton.mp hField
          exact hHead
      have hRest := ih hContext hMore hTail h
      rwa [List.append_assoc] at hRest
    · rename_i hComplex
      rw [Bool.not_eq_true] at hComplex
      obtain ⟨front, hFront, hMore⟩ := Option.bind_eq_some_iff.mp h
      obtain ⟨⟨own, counter₁⟩, hOwn, hLast⟩ := Option.bind_eq_some_iff.mp hMore
      obtain ⟨⟨rest, counter₂⟩, hRest, hEq⟩ := Option.map_eq_some_iff.mp hLast
      cases hEq
      obtain ⟨hOwnFollows, hLe⟩ := follows_complex hCtx hSub hHead.1 hContext hHead.2 hComplex hOwn
      have hContext₁ : Kept s.depth counter₁ s.context := hContext.mono (Nat.le_refl _) hLe
      have hNone : ProperFields [] := fun _ hField => absurd hField List.not_mem_nil
      obtain ⟨hRestFollows, hLe₁⟩ := ih hContext₁ hNone hTail hRest
      refine ⟨?_, Nat.le_trans hLe hLe₁⟩
      rw [List.append_assoc]
      have hBehind := hOwnFollows.append hContext hLe hRestFollows
      exact (follows_simples hSimples hContext hFront).append hContext (Nat.le_refl _) hBehind

end

theorem subFollows_serializer {ctx : MsgContext} (hCtx : ProperContext ctx) (serialize : Bool) (fuel : Nat) :
    SubFollows ctx (serializer ctx serialize fuel) := by
  induction fuel with
  | zero => rintro s package fields counter code counter' - - ⟨⟩
  | succ fuel ih =>
    intro s package fields counter code counter' hContext hFields h
    rw [serializer] at h
    dsimp only at h
    split at h
    · rename_i hEmpty
      cases h
      rw [hEmpty.2]
      refine ⟨follows_each (fun vars a ha => absurd ha List.not_mem_nil) (fun vars field hField => ?_) fun vars _ _ => rfl, Nat.le_refl _⟩
      exact absurd hField List.not_mem_nil
    · have hNone : ProperFields [] := fun _ hField => absurd hField List.not_mem_nil
      exact follows_serializeFields hCtx ih hContext hNone hFields h

end XcRos.Genpy
