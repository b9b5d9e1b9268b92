import XcRos.Genpy.Frame
import XcRos.Genpy.Resolve

/-! # Code for resolved types

What the generators emit for one field and for a list of fields, by the node that the type resolves to.
This holds for both directions, so it does not look into the code.
-/

namespace XcRos.Genpy

open XcRos.Foundation XcRos.Msg

/-- Code is emitted that has a property, and the variables with numbers up to `counter` are not used again. -/
def Emits (emitted : Option (List Stmt × Nat)) (counter : Nat) (P : List Stmt → Prop) : Prop :=
  ∃ code counter', emitted = some (code, counter') ∧ counter ≤ counter' ∧ P code

theorem Emits.of_eq {code : List Stmt} {counter : Nat} {P : List Stmt → Prop} (h : P code) :
    Emits (some (code, counter)) counter P :=
  ⟨code, counter, rfl, Nat.le_refl counter, h⟩

/-! ## One field -/

section

variable {sub : MsgSpec → Option Members} {ctx : MsgContext} {base : Str} {t : Ty}

theorem isBytes_iff (h : ResolvedBase sub ctx base t) : isBytes base = t.isByte := by
  cases h with
  | @simple base s hSimple =>
    rw [← name_of_simpleOf hSimple]
    cases s <;> rfl
  | string => rfl
  | message hNone =>
    have hNot : ∀ name s, simpleOf name = some s → base ≠ name := by
      rintro name s hSome rfl
      rw [hNone] at hSome
      cases hSome
    have hByte : base ≠ str "uint8" := hNot _ .uint8 (by decide)
    have hChar : base ≠ str "char" := hNot _ .char (by decide)
    simp [isBytes, hByte, hChar, Ty.isByte]

end

section

variable {ctx : MsgContext} {serialize : Bool} {sub : Scope → Str → Fields → Nat → Option (List Stmt × Nat)}
  {package : Str} {s : Scope} {path : Path} {counter : Nat}

theorem complexSerializer_string :
    complexSerializer ctx serialize sub package (str "string") s path counter =
      some (stringSerializer (str "string") none true (s.ref path) serialize, counter) := by
  have hParse : parseType (str "string") = some (str "string", .scalar) := by decide
  rw [complexSerializer, hParse, Option.bind_some]
  rfl

theorem complexSerializer_array {type base : Str} {arity : Arity} (hParse : parseType type = some (base, arity))
    (hArity : arity ≠ .scalar) :
    complexSerializer ctx serialize sub package type s path counter =
      arraySerializer ctx serialize sub package base arity s path counter := by
  rw [complexSerializer, hParse, Option.bind_some]
  exact if_pos hArity

theorem complexSerializer_message {type : Str} {spec : MsgSpec} (hParse : parseType type = some (type, .scalar))
    (hBracket : '[' ∉ type) (hString : type ≠ str "string")
    (hName : (type = str "time" ∨ type = str "duration") ∨ '/' ∈ type) (hSpec : ctx.getRegistered type = some spec) :
    complexSerializer ctx serialize sub package type s path counter =
      (sub ⟨.v (counter + 1), s.depth + 1⟩ spec.package (makePythonSafe (specFields spec)) (counter + 1)).map
        fun r => (.name (.v (counter + 1)) (s.ref path) :: r.1, r.2) := by
  rw [complexSerializer, hParse, Option.bind_some]
  dsimp only
  rw [if_neg (not_not.mpr rfl), if_neg hString]
  have hType := complex_type hBracket hName hSpec package
  rw [hType, Option.bind_some, hSpec, Option.bind_some]

end

/-! ## Lists of fields -/

theorem chunks_nil {α : Type} : chunks ([] : List α) = [] := by
  rw [chunks]
  rfl

theorem chunks_of_ne_nil {α : Type} {as : List α} (h : as ≠ []) : chunks as = as.take 255 :: chunks (as.drop 255) := by
  rw [chunks, if_neg h]

theorem chunks_ne_nil {α : Type} (as : List α) : ∀ chunk ∈ chunks as, chunk ≠ [] := by
  induction as using chunks.induct with
  | case1 => simp [chunks_nil]
  | case2 as hNonempty ih =>
    rw [chunks_of_ne_nil hNonempty]
    intro chunk hChunk
    rcases List.mem_cons.mp hChunk with rfl | hChunk
    · intro hNil
      have hLength := congrArg List.length hNil
      rw [List.length_take, List.length_nil] at hLength
      have := List.length_pos_of_ne_nil hNonempty
      omega
    · exact ih chunk hChunk

theorem chunks_flatten {α : Type} (as : List α) : (chunks as).flatten = as := by
  induction as using chunks.induct with
  | case1 => rw [chunks_nil]; rfl
  | case2 as hNonempty ih => rw [chunks_of_ne_nil hNonempty, List.flatten_cons, ih, List.take_append_drop]

theorem chunks_map {α β : Type} (g : α → β) (as : List α) : chunks (as.map g) = (chunks as).map (List.map g) := by
  induction as using chunks.induct with
  | case1 => rw [List.map_nil, chunks_nil, chunks_nil]; rfl
  | case2 as hNonempty ih =>
    have hMap : as.map g ≠ [] := by simpa using hNonempty
    rw [chunks_of_ne_nil hNonempty, chunks_of_ne_nil hMap, List.map_cons, ← ih, List.map_take, List.map_drop]

abbrev Entry := (Str × Path) × Ty

structure MemberEntries (sub : MsgSpec → Option Members) (ctx : MsgContext) (spec : MsgSpec) (members : Members)
    (entries : List Entry) : Prop where
  fields : entries.map Prod.fst = makePythonSafe (specFields spec)
  resolved : ∀ e ∈ entries, Resolved sub ctx e.1.1 e.2
  slots : entries.map (fun e => (e.1.2, e.2)) = members.toList.map fun member => ([remapReserved member.1], member.2)

theorem exists_memberEntries (sub : MsgSpec → Option Members) {ctx : MsgContext} {spec : MsgSpec} {members : Members}
    (h : resolveMembers sub ctx spec.fields = some members) : ∃ entries, MemberEntries sub ctx spec members entries := by
  have hList : ∀ (fields : List (Str × Str)) (members : Members), resolveMembers sub ctx fields = some members →
      ∃ entries : List Entry,
        entries.map Prod.fst = makePythonSafe (fields.map fun field => (field.1, [field.2])) ∧
        (∀ e ∈ entries, Resolved sub ctx e.1.1 e.2) ∧
        entries.map (fun e => (e.1.2, e.2)) = members.toList.map fun member => ([remapReserved member.1], member.2) := by
    intro fields
    induction fields with
    | nil =>
      rintro _ ⟨⟩
      exact ⟨[], rfl, fun _ he => absurd he List.not_mem_nil, rfl⟩
    | cons field fields ih =>
      obtain ⟨type, name⟩ := field
      intro members hMembers
      obtain ⟨t, hType, hRest⟩ := Option.bind_eq_some_iff.mp hMembers
      obtain ⟨rest, hFields, rfl⟩ := Option.map_eq_some_iff.mp hRest
      obtain ⟨entries, hFst, hResolved, hSlots⟩ := ih rest hFields
      refine ⟨((type, [remapReserved name]), t) :: entries, ?_, ?_, ?_⟩
      · rw [List.map_cons, hFst]
        rfl
      · intro e he
        rcases List.mem_cons.mp he with rfl | he
        · exact resolved hType
        · exact hResolved e he
      · rw [List.map_cons, hSlots]
        rfl
  obtain ⟨entries, hFst, hResolved, hSlots⟩ := hList spec.fields members h
  exact ⟨entries, hFst, hResolved, hSlots⟩

theorem emits_serializeFields {sub : MsgSpec → Option Members} {ctx : MsgContext} {serialize : Bool} {s : Scope}
    {complex : Str → Path → Nat → Option (List Stmt × Nat)} {P : List Entry → Nat → List Stmt → Prop}
    (hNil : ∀ counter, P [] counter [])
    (hAppend : ∀ front entries counter counter' code more, counter ≤ counter' → P front counter code →
      P entries counter' more → P (front ++ entries) counter (code ++ more))
    (hChunk : ∀ entries, entries ≠ [] →
      (∀ e ∈ entries, ∃ simple, simpleOf e.1.1 = some simple ∧ e.2 = .simple simple) →
      ∃ code, simpleSerializer serialize s (entries.map Prod.fst) = some code ∧ ∀ counter, P entries counter code)
    {entries : List Entry} (hEntries : ∀ e ∈ entries, Resolved sub ctx e.1.1 e.2)
    (hComplex : ∀ e ∈ entries, isSimple e.1.1 = false → ∀ counter,
      Emits (complex e.1.1 e.1.2 counter) counter (P [e] counter))
    (counter : Nat) :
    Emits (serializeFields serialize s complex [] (entries.map Prod.fst) counter) counter (P entries counter) := by
  have hSimples : ∀ entries : List Entry,
      (∀ e ∈ entries, ∃ simple, simpleOf e.1.1 = some simple ∧ e.2 = .simple simple) →
      ∃ code, simpleSerializers serialize s (entries.map Prod.fst) = some code ∧ ∀ counter, P entries counter code := by
    intro entries hSimple
    have hParts : ∀ parts : List (List Entry), (∀ part ∈ parts, part ≠ []) →
        (∀ e ∈ parts.flatten, ∃ simple, simpleOf e.1.1 = some simple ∧ e.2 = .simple simple) →
        ∃ code, ((parts.map (List.map Prod.fst)).mapM (simpleSerializer serialize s)).map List.flatten = some code ∧
          ∀ counter, P parts.flatten counter code := by
      intro parts
      induction parts with
      | nil => exact fun _ _ => ⟨[], rfl, hNil⟩
      | cons part parts ih =>
        intro hNonempty hEach
        rw [List.flatten_cons] at hEach
        obtain ⟨code, hCode, hHead⟩ := hChunk part (hNonempty part List.mem_cons_self)
          fun e he => hEach e (List.mem_append_left _ he)
        obtain ⟨more, hMore, hTail⟩ := ih (fun part hPart => hNonempty part (List.mem_cons_of_mem _ hPart))
          fun e he => hEach e (List.mem_append_right _ he)
        obtain ⟨codes, hCodes, rfl⟩ := Option.map_eq_some_iff.mp hMore
        refine ⟨code ++ codes.flatten, ?_, fun counter => ?_⟩
        · rw [List.map_cons, List.mapM_cons, hCode, hCodes]
          rfl
        · rw [List.flatten_cons]
          exact hAppend part parts.flatten counter counter code codes.flatten (Nat.le_refl counter) (hHead counter)
            (hTail counter)
    have hAll := hParts (chunks entries) (chunks_ne_nil entries)
    rw [chunks_flatten, ← chunks_map] at hAll
    exact hAll hSimple
  -- The entries before the one in turn that are not emitted yet are simple.
  have hLoop : ∀ entries simples : List Entry, (∀ e ∈ entries, Resolved sub ctx e.1.1 e.2) →
      (∀ e ∈ entries, isSimple e.1.1 = false → ∀ counter, Emits (complex e.1.1 e.1.2 counter) counter (P [e] counter)) →
      (∀ e ∈ simples, ∃ simple, simpleOf e.1.1 = some simple ∧ e.2 = .simple simple) → ∀ counter,
      Emits (serializeFields serialize s complex (simples.map Prod.fst) (entries.map Prod.fst) counter) counter
        (P (simples ++ entries) counter) := by
    intro entries
    induction entries with
    | nil =>
      intro simples _ _ hFront counter
      obtain ⟨code, hCode, hP⟩ := hSimples simples hFront
      rw [List.append_nil]
      exact ⟨code, counter, by rw [List.map_nil, serializeFields, hCode]; rfl, Nat.le_refl counter, hP counter⟩
    | cons e entries ih =>
      intro simples hResolved hComplex hFront counter
      have hHead := hResolved e List.mem_cons_self
      have hTail : ∀ e ∈ entries, Resolved sub ctx e.1.1 e.2 := fun e he => hResolved e (List.mem_cons_of_mem _ he)
      have hTailComplex := fun e' he' => hComplex e' (List.mem_cons_of_mem e he')
      obtain ⟨⟨type, path⟩, t⟩ := e
      rw [List.map_cons, serializeFields]
      cases hIs : isSimple type with
      | true =>
        rw [if_pos rfl]
        have hLast := hHead.isSimple_iff.mp hIs
        have := ih (simples ++ [((type, path), t)]) hTail hTailComplex (by
          intro e he
          rcases List.mem_append.mp he with he | he
          · exact hFront e he
          · rw [List.mem_singleton.mp he]
            exact hLast) counter
        rw [List.map_append, List.append_assoc] at this
        exact this
      | false =>
        rw [if_neg Bool.false_ne_true]
        obtain ⟨code, hCode, hP⟩ := hSimples simples hFront
        obtain ⟨more, counter₁, hMore, hLe₁, hP₁⟩ := hComplex ((type, path), t) List.mem_cons_self hIs counter
        obtain ⟨rest, counter₂, hRest, hLe₂, hP₂⟩ := ih [] hTail hTailComplex (fun e he => absurd he List.not_mem_nil) counter₁
        have hMore' : complex type path counter = some (more, counter₁) := hMore
        rw [List.map_nil] at hRest
        refine ⟨code ++ more ++ rest, counter₂, ?_, Nat.le_trans hLe₁ hLe₂, ?_⟩
        · rw [hCode, Option.bind_some, hMore', Option.bind_some]
          show (serializeFields serialize s complex [] (entries.map Prod.fst) counter₁).map _ = _
          rw [hRest]
          rfl
        · rw [List.append_assoc]
          refine hAppend simples (((type, path), t) :: entries) counter counter code (more ++ rest) (Nat.le_refl counter)
            (hP counter) ?_
          exact hAppend [((type, path), t)] entries counter counter₁ more rest hLe₁ hP₁ hP₂
  have := hLoop entries [] hEntries hComplex (fun e he => absurd he List.not_mem_nil) counter
  exact this

end XcRos.Genpy
