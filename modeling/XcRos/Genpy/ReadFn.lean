import XcRos.Genpy.ReadArrays

/-! # What deserialize reads

The code of `deserialize_fn_generator` reads the members of a message from the start of the bytes. `struct.error`
comes out of it as a `DeserializationError`.
-/

namespace XcRos.Genpy

open XcRos.Foundation XcRos.Msg

/-! ## Lists of fields -/

section

variable {env : Env} {ctx : MsgContext} {resolves : MsgSpec → Option Members}
  {sub : Scope → Str → Fields → Nat → Option (List Stmt × Nat)} {s : Scope} {package : Str}

theorem emits_readComplex (hSub : SubReads env resolves sub) (hNew : Constructs env ctx resolves) {type : Str}
    {path : Path} {t : Ty} (hResolved : Resolved resolves ctx type t) (hComplex : isSimple type = false) (counter : Nat) :
    Emits (complexSerializer ctx false sub package type s path counter) counter
      (Reads env s [((type, path), t)] counter) := by
  cases hResolved with
  | scalar hParse hBracket hBase =>
    cases hBase with
    | simple hSimple =>
      rw [isSimple, hSimple] at hComplex
      cases hComplex
    | string =>
      rw [complexSerializer_string]
      exact Emits.of_eq (reads_string counter)
    | @message base spec members hSimple hString hName hSpec hMembers hSlots =>
      obtain ⟨code, counter', hCode, hCounter, hReads⟩ :=
        hSub spec members hMembers hSlots ⟨.v (counter + 1), s.depth + 1⟩ (counter + 1)
      rw [complexSerializer_message hParse hBracket hString hName hSpec, hCode]
      exact ⟨_, counter', rfl, by omega, reads_message hReads⟩
  | @array base arity elem hParse hArity hSimple hBracket hBase =>
    rw [complexSerializer_array hParse hArity]
    exact emits_readArray hSub hNew hBase hBracket arity counter

end

theorem emits_readEntries {env : Env} {ctx : MsgContext} {resolves : MsgSpec → Option Members} {fuel : Nat}
    (hSub : SubReads env resolves (serializer ctx false fuel)) (hNew : Constructs env ctx resolves) (s : Scope)
    (package : Str) {entries : List Entry} (hEntries : ∀ e ∈ entries, Resolved resolves ctx e.1.1 e.2) (counter : Nat) :
    Emits (serializer ctx false (fuel + 1) s package (entries.map Prod.fst) counter) counter
      (Reads env s entries counter) := by
  have hNot : ¬ (false = true ∧ entries.map Prod.fst = []) := fun h => Bool.false_ne_true h.1
  rw [serializer]
  dsimp only
  rw [if_neg hNot]
  exact emits_serializeFields (fun counter => reads_nil counter)
    (fun _ _ _ _ _ _ hCounter hFront hMore => reads_append hCounter hFront hMore)
    (fun _ hNonempty hSimple => reads_chunk hNonempty hSimple) hEntries
    (fun e he hComplex counter => emits_readComplex hSub hNew (hEntries e he) hComplex counter) counter

/-! ## Attributes -/

theorem readLeaves_members (members : Members) :
    readLeaves (members.toList.map fun member => ([remapReserved member.1], member.2)) =
      members.read.map fun attrs => attrs.map fun attr => ([attr.1], attr.2) := by
  induction members using Members.listInduction with
  | nil => rfl
  | cons name t rest ih =>
    rw [Members.toList, List.map_cons, readLeaves, ih, Members.read]
    simp only [Scan.map₂, Scan.bind_map, Scan.map_map, List.map_cons]

theorem keys_of_read {members : Members} {bs : Bytes} {attrs : List (Str × PyVal)} {n : Nat}
    (h : members.read bs = .ok (attrs, n)) : attrs.map Prod.fst = members.slots := by
  have hLeaves : readLeaves (members.toList.map fun member => ([remapReserved member.1], member.2)) bs =
      .ok (attrs.map fun attr => ([attr.1], attr.2), n) := by
    rw [readLeaves_members, Scan.map, h]
    rfl
  have hPaths := paths_of_readLeaves hLeaves
  rw [List.map_map, List.map_map] at hPaths
  have hHeads := congrArg (List.filterMap List.head?) hPaths
  simpa [List.filterMap_map, Members.slots, Function.comp_def] using hHeads

theorem Members.keys_of_instance {members : Members} {olds : List (Str × PyVal)} (h : members.Instance olds) :
    olds.map Prod.fst = members.slots := by
  induction members using Members.listInduction generalizing olds with
  | nil =>
    obtain rfl := h
    rfl
  | cons name t rest ih =>
    obtain ⟨v, more, rfl, _, hRest⟩ := h
    rw [List.map_cons, ih hRest]
    rfl

theorem Members.instance_part {members : Members} {olds : List (Str × PyVal)} (h : members.Instance olds)
    (hSlots : members.slots.Nodup) :
    ∀ member ∈ members.toList, ∃ w, olds.lookup (remapReserved member.1) = some w ∧ member.2.Instance w := by
  induction members using Members.listInduction generalizing olds with
  | nil => exact fun _ h => absurd h List.not_mem_nil
  | cons name t rest ih =>
    obtain ⟨v, more, rfl, hHead, hRest⟩ := h
    intro member hMember
    rcases List.mem_cons.mp hMember with rfl | hMember
    · exact ⟨v, List.lookup_cons_self, hHead⟩
    · obtain ⟨w, hw, hPart⟩ := ih hRest (List.nodup_cons.mp hSlots).2 member hMember
      refine ⟨w, ?_, hPart⟩
      rw [lookup_below hSlots _ (List.mem_map.mpr ⟨member, hMember, rfl⟩), hw]

theorem setEach_attributes (cls : Str) {attrs olds : List (Str × PyVal)} (done : List (Str × PyVal))
    (hKeys : attrs.map Prod.fst = olds.map Prod.fst) (hNodup : (done.map Prod.fst ++ attrs.map Prod.fst).Nodup) :
    setEach (attrs.map fun attr => ([attr.1], attr.2)) (.obj cls (done ++ olds)) = some (.obj cls (done ++ attrs)) := by
  induction attrs generalizing olds done with
  | nil =>
    obtain rfl := List.map_eq_nil_iff.mp hKeys.symm
    rfl
  | cons attr attrs ih =>
    cases olds with
    | nil => cases hKeys
    | cons old olds =>
      obtain ⟨key, v⟩ := attr
      obtain ⟨oldKey, w⟩ := old
      obtain ⟨hKey, hRest⟩ := List.cons.inj hKeys
      have hKey : key = oldKey := hKey
      subst hKey
      have hFresh : key ∉ done.map Prod.fst := fun hMem =>
        (List.nodup_append.mp hNodup).2.2 key hMem key List.mem_cons_self rfl
      have hSet : PyVal.set [key] v (.obj cls (done ++ (key, w) :: olds)) = some (.obj cls ((done ++ [(key, v)]) ++ olds)) := by
        rw [PyVal.set, PyVal.modify, PyVal.modifyAttr, modifyField_append hFresh, modifyField_cons_self]
        simp [PyVal.modify]
      rw [List.map_cons, setEach_cons, hSet, Option.bind_some, ih (done ++ [(key, v)]) hRest, List.append_assoc]
      · rfl
      · rwa [List.map_append, List.append_assoc]

theorem places_of_instance {sub : MsgSpec → Option Members} {ctx : MsgContext} {spec : MsgSpec} {members : Members}
    {entries : List Entry} (hEntries : MemberEntries sub ctx spec members entries) (hSlots : members.slots.Nodup) (cls : Str)
    {olds : List (Str × PyVal)} (hInstance : members.Instance olds) : Places entries (.obj cls olds) := by
  have hMember : ∀ e ∈ entries, ∃ member ∈ members.toList, [remapReserved member.1] = e.1.2 ∧ member.2 = e.2 := by
    intro e he
    have hMem : (e.1.2, e.2) ∈ members.toList.map fun member => ([remapReserved member.1], member.2) :=
      hEntries.slots ▸ List.mem_map.mpr ⟨e, he, rfl⟩
    obtain ⟨member, hMember, hEq⟩ := List.mem_map.mp hMem
    exact ⟨member, hMember, Prod.mk.inj hEq⟩
  constructor
  · intro e he
    obtain ⟨member, _, hPath, _⟩ := hMember e he
    rw [← hPath]
    exact List.cons_ne_nil _ _
  · intro e he
    obtain ⟨member, hIn, hPath, hTy⟩ := hMember e he
    obtain ⟨w, hw, hPart⟩ := Members.instance_part hInstance hSlots member hIn
    exact ⟨w, by rw [← hPath, at?_attribute, hw], hTy ▸ hPart⟩
  · have hPaths : entries.map (fun e => e.1.2) = members.toList.map fun member => [remapReserved member.1] := by
      have := congrArg (List.map Prod.fst) hEntries.slots
      rwa [List.map_map, List.map_map] at this
    rw [hPaths]
    exact attributes_apart hSlots

theorem Constructs.mono {env : Env} {ctx : MsgContext} {fuel more : Nat} (h : Constructs env ctx (resolve ctx more))
    (hLe : fuel ≤ more) : Constructs env ctx (resolve ctx fuel) :=
  fun base spec members hSpec hMembers => h base spec members hSpec (resolve_le hLe hMembers)

theorem subReads_serializer {env : Env} {ctx : MsgContext} {fuel : Nat} (hNew : Constructs env ctx (resolve ctx fuel)) :
    SubReads env (resolve ctx fuel) (serializer ctx false fuel) := by
  induction fuel with
  | zero =>
    rintro spec members ⟨⟩
  | succ fuel ih =>
    intro spec members hMembers hSlots s counter
    have hLess := hNew.mono (Nat.le_succ fuel)
    obtain ⟨entries, hEntries⟩ := exists_memberEntries (resolve ctx fuel) hMembers
    obtain ⟨code, counter', hCode, hCounter, hReads⟩ :=
      emits_readEntries (ih hLess) hLess s spec.package hEntries.resolved counter
    rw [hEntries.fields] at hCode
    refine ⟨code, counter', hCode, hCounter, fun f root path cls olds hScope hInstance => ?_⟩
    have hFills := hReads f root path _ hScope (places_of_instance hEntries hSlots cls hInstance)
    rw [leavesOf, hEntries.slots, readLeaves_members] at hFills
    constructor
    · intro attrs n hRead
      obtain ⟨f', o', hRun, hSet, hBecomes, hStop⟩ := hFills.reads _ n (by rw [Scan.map, hRead]; rfl)
      have hKeys := keys_of_read hRead
      have hAll := setEach_attributes cls [] (hKeys.trans (Members.keys_of_instance hInstance).symm) (by
        rw [List.map_nil, List.nil_append, hKeys]
        exact hSlots)
      rw [List.nil_append, List.nil_append] at hAll
      obtain rfl := Option.some.inj (hSet.symm.trans hAll)
      exact ⟨f', _, hRun, rfl, hBecomes, hStop⟩
    · intro fault hRead
      exact hFills.raises fault (by rw [Scan.map, hRead]; rfl)

/-! ## Classes -/

theorem Ty.ne_none_of_instance {t : Ty} {w : PyVal} (h : t.Instance w) : w ≠ .none := by
  cases t with
  | message cls members =>
    obtain ⟨attrs, rfl, _⟩ := h
    rintro ⟨⟩
  | simple | string | array => exact h

section

variable {ctx : MsgContext} {resolves : MsgSpec → Option Members} {new : Str → Option PyVal}

theorem parseType_base_scalar {base : Str} {t : Ty} (hBase : ResolvedBase resolves ctx base t) (hBracket : '[' ∉ base) :
    parseType base = some (base, .scalar) := by
  have hNonempty : base ≠ [] := by
    rintro rfl
    cases hBase with
    | simple hSimple =>
      have hNone : simpleOf [] = none := by decide
      rw [hNone] at hSimple
      cases hSimple
    | message _ _ hName =>
      revert hName
      decide
  rw [parseType, if_neg hNonempty, if_neg hBracket]

theorem defaultValue_scalar
    (hNew : ∀ base spec members, ctx.getRegistered base = some spec → resolves spec = some members →
      ∃ olds, new base = some (.obj base olds) ∧ members.Instance olds)
    {base : Str} {t : Ty} (hBase : ResolvedBase resolves ctx base t) (hBracket : '[' ∉ base) :
    ∃ v, defaultValue new base = some v ∧ t.Instance v := by
  rw [defaultValue, parseType_base_scalar hBase hBracket, Option.bind_some]
  dsimp only
  cases hBase with
  | @simple base s hSimple =>
    rw [hSimple]
    cases s <;> exact ⟨_, rfl, by rintro ⟨⟩⟩
  | string =>
    rw [simpleOf_string]
    exact ⟨.str [], rfl, by rintro ⟨⟩⟩
  | message hSimple hString _ hSpec hMembers =>
    obtain ⟨olds, hObject, hInstance⟩ := hNew _ _ _ hSpec hMembers
    rw [hSimple]
    dsimp only
    rw [if_neg hString]
    exact ⟨_, hObject, olds, rfl, hInstance⟩

theorem defaultValue_instance
    (hNew : ∀ base spec members, ctx.getRegistered base = some spec → resolves spec = some members →
      ∃ olds, new base = some (.obj base olds) ∧ members.Instance olds)
    {type : Str} {t : Ty} (h : Resolved resolves ctx type t) : ∃ v, defaultValue new type = some v ∧ t.Instance v := by
  cases h with
  | scalar _ hBracket hBase => exact defaultValue_scalar hNew hBase hBracket
  | @array base arity elem hParse hArity _ hBracket hBase =>
    obtain ⟨v, hScalar, _⟩ := defaultValue_scalar hNew hBase hBracket
    rw [defaultValue, parseType_base_scalar hBase hBracket, Option.bind_some] at hScalar
    rw [defaultValue, hParse, Option.bind_some]
    dsimp only at hScalar ⊢
    cases arity with
    | scalar => exact absurd rfl hArity
    | «variable» =>
      refine ⟨_, rfl, ?_⟩
      cases isBytes base <;> rintro ⟨⟩
    | fixed n =>
      dsimp only
      rw [hScalar]
      cases isBytes base <;> exact ⟨_, rfl, by rintro ⟨⟩⟩

end

theorem constructs_newInstance (ctx : MsgContext) (fuel : Nat) (input : Bytes) :
    Constructs ⟨input, newInstance ctx fuel⟩ ctx (resolve ctx fuel) := by
  induction fuel with
  | zero =>
    rintro base spec members _ ⟨⟩
  | succ fuel ih =>
    intro base spec members hSpec hMembers
    have hFields : ∀ (fields : List (Str × Str)) (members : Members), resolveMembers (resolve ctx fuel) ctx fields = some members →
        ∃ olds, (fields.mapM fun field =>
          (defaultValue (newInstance ctx fuel) field.1).map fun v => (remapReserved field.2, v)) = some olds ∧
          members.Instance olds := by
      intro fields
      induction fields with
      | nil =>
        rintro _ ⟨⟩
        exact ⟨[], rfl, rfl⟩
      | cons field fields ihFields =>
        intro members hMembers
        obtain ⟨t, hType, hRest⟩ := Option.bind_eq_some_iff.mp hMembers
        obtain ⟨rest, hTail, rfl⟩ := Option.map_eq_some_iff.mp hRest
        obtain ⟨v, hDefault, hInstance⟩ := defaultValue_instance ih (resolved hType)
        obtain ⟨olds, hOlds, hAll⟩ := ihFields rest hTail
        exact ⟨(remapReserved field.2, v) :: olds, by rw [List.mapM_cons, hDefault, hOlds]; rfl, v, olds, rfl, hInstance, hAll⟩
    obtain ⟨olds, hOlds, hInstance⟩ := hFields spec.fields members hMembers
    refine ⟨olds, ?_, hInstance⟩
    show (ctx.getRegistered base).bind _ = _
    rw [hSpec, Option.bind_some]
    exact congrArg (Option.map (PyVal.obj base)) hOlds

/-! ## Leaves -/

theorem readLeaves_below (name : Str) (leaves : List (Path × Ty)) :
    readLeaves (leaves.map fun leaf => (name :: leaf.1, leaf.2)) =
      (readLeaves leaves).map fun pairs => pairs.map fun pair => (name :: pair.1, pair.2) := by
  induction leaves with
  | nil => rfl
  | cons leaf leaves ih =>
    rw [List.map_cons, readLeaves, readLeaves, ih]
    simp only [Scan.map₂, Scan.bind_map, Scan.map_map, List.map_cons]

theorem setEach_below {o w : PyVal} {name : Str} (ho : o.getattr name = some w) (pairs : List (Path × PyVal)) :
    setEach (pairs.map fun pair => (name :: pair.1, pair.2)) o = o.modifyAttr name (setEach pairs) := by
  induction pairs generalizing o w with
  | nil =>
    cases o with
    | obj cls attrs =>
      have hSame : modifyField name (setEach []) attrs = some attrs := modifyField_some ho
      rw [PyVal.modifyAttr, hSame]
      rfl
    | _ => cases ho
  | cons pair pairs ih =>
    have hTail : setEach (pair :: pairs) = fun w => (PyVal.set pair.1 pair.2 w).bind (setEach pairs) :=
      funext fun w => setEach_cons pair pairs w
    rw [List.map_cons, setEach_cons, hTail, ← PyVal.modifyAttr_modifyAttr]
    show (o.modifyAttr name (PyVal.set pair.1 pair.2)).bind _ = _
    cases hFirst : o.modifyAttr name (PyVal.set pair.1 pair.2) with
    | none => rfl
    | some o' =>
      obtain ⟨_, w', _, _, hNew⟩ := PyVal.getattr_modifyAttr hFirst
      exact ih hNew

theorem modifyAttr_behind {done : List (Str × PyVal)} {name : Str} (hFresh : name ∉ done.map Prod.fst) (cls : Str) (w : PyVal)
    (olds : List (Str × PyVal)) (g : PyVal → Option PyVal) :
    (PyVal.obj cls (done ++ (name, w) :: olds)).modifyAttr name g =
      (g w).map fun v => .obj cls (done ++ (name, v) :: olds) := by
  rw [PyVal.modifyAttr, modifyField_append hFresh, modifyField_cons_self]
  cases g w <;> rfl

theorem getattr_behind {done : List (Str × PyVal)} {name : Str} (hFresh : name ∉ done.map Prod.fst) (cls : Str) (w : PyVal)
    (olds : List (Str × PyVal)) : (PyVal.obj cls (done ++ (name, w) :: olds)).getattr name = some w := by
  have hNone : done.lookup name = none := List.lookup_eq_none_iff.mpr fun entry hEntry =>
    bne_iff_ne.mpr fun hEq => hFresh (hEq ▸ List.mem_map.mpr ⟨entry, hEntry, rfl⟩)
  rw [PyVal.getattr, List.lookup_append, hNone, List.lookup_cons_self]
  rfl

structure ReadsLeaves {α : Type} (m : Scan Fault UInt8 α) (leaves : List (Path × Ty)) (gives : α → List (Path × PyVal) → Prop) :
    Prop where
  reads : ∀ bs a n, m bs = .ok (a, n) → ∃ pairs, readLeaves leaves bs = .ok (pairs, n) ∧ gives a pairs
  raises : ∀ bs fault, m bs = .error fault → readLeaves leaves bs = .error fault

theorem readsLeaves_leaf {t : Ty} :
    ReadsLeaves t.read [([], t)] fun v pairs => ∀ w, setEach pairs w = some v := by
  constructor
  · intro bs v n hRead
    refine ⟨[([], v)], ?_, fun w => rfl⟩
    rw [readLeaves_singleton, Scan.map, hRead]
    rfl
  · intro bs fault hRead
    rw [readLeaves_singleton, Scan.map, hRead]
    rfl

mutual

theorem Ty.readsLeaves : (t : Ty) → t.WellFormed →
    ReadsLeaves t.read (t.leaves.map slotted) fun v pairs => ∀ w, t.Instance w → setEach pairs w = some v
  | .simple s, _ => ⟨fun bs v n h => by
      obtain ⟨pairs, hRead, hSet⟩ := readsLeaves_leaf.reads bs v n h
      exact ⟨pairs, hRead, fun w _ => hSet w⟩, readsLeaves_leaf.raises⟩
  | .string, _ => ⟨fun bs v n h => by
      obtain ⟨pairs, hRead, hSet⟩ := readsLeaves_leaf.reads bs v n h
      exact ⟨pairs, hRead, fun w _ => hSet w⟩, readsLeaves_leaf.raises⟩
  | .array _ _, _ => ⟨fun bs v n h => by
      obtain ⟨pairs, hRead, hSet⟩ := readsLeaves_leaf.reads bs v n h
      exact ⟨pairs, hRead, fun w _ => hSet w⟩, readsLeaves_leaf.raises⟩
  | .message cls members, hFormed => by
    have h := members.readsLeaves hFormed.1 hFormed.2
    constructor
    · intro bs v n hRead
      obtain ⟨attrs, hMembers, rfl⟩ := Scan.map_eq_ok hRead
      obtain ⟨pairs, hPairs, hSet⟩ := h.reads bs attrs n hMembers
      refine ⟨pairs, hPairs, fun w hInstance => ?_⟩
      obtain ⟨olds, rfl, hOlds⟩ := hInstance
      exact hSet cls [] olds hOlds fun _ _ => List.not_mem_nil
    · exact fun bs fault hRead => h.raises bs fault (Scan.map_eq_error hRead)

theorem Members.readsLeaves : (members : Members) → members.slots.Nodup → members.WellFormed →
    ReadsLeaves members.read (members.leaves.map slotted) fun attrs pairs => ∀ cls done olds, members.Instance olds →
      (∀ k ∈ members.slots, k ∉ done.map Prod.fst) → setEach pairs (.obj cls (done ++ olds)) = some (.obj cls (done ++ attrs))
  | .nil, _, _ => by
    constructor
    · rintro bs _ _ ⟨⟩
      refine ⟨[], rfl, fun cls done olds hOlds _ => ?_⟩
      obtain rfl := hOlds
      rfl
    · rintro bs _ ⟨⟩
  | .cons name t rest, hNodup, hFormed => by
    obtain ⟨hFresh, hRestNodup⟩ := List.nodup_cons.mp hNodup
    have hHead := t.readsLeaves hFormed.1
    have hTail := rest.readsLeaves hRestNodup hFormed.2
    have hLeaves : (Members.cons name t rest).leaves.map slotted =
        (t.leaves.map slotted).map (fun leaf => (remapReserved name :: leaf.1, leaf.2)) ++ rest.leaves.map slotted := by
      rw [Members.leaves, List.map_append, List.map_map, List.map_map]
      rfl
    rw [hLeaves, Members.read]
    constructor
    · intro bs attrs n hRead
      obtain ⟨⟨v, i⟩, hFirst, hMore⟩ := exists_of_bind hRead
      obtain ⟨⟨all, j⟩, hMap, hEq⟩ := exists_of_map hMore
      cases hEq
      obtain ⟨more, hRest, rfl⟩ := Scan.map_eq_ok hMap
      obtain ⟨front, hFront, hSetFront⟩ := hHead.reads bs v i hFirst
      obtain ⟨pairs, hPairs, hSetPairs⟩ := hTail.reads _ more j hRest
      have hBelow : readLeaves ((t.leaves.map slotted).map fun leaf => (remapReserved name :: leaf.1, leaf.2)) bs =
          .ok (front.map fun pair => (remapReserved name :: pair.1, pair.2), i) := by
        rw [readLeaves_below, Scan.map, hFront]
        rfl
      refine ⟨front.map (fun pair => (remapReserved name :: pair.1, pair.2)) ++ pairs, ?_, fun cls done olds hOlds hOut => ?_⟩
      · rw [readLeaves_append, Scan.map₂, Scan.bind_of_ok hBelow, Scan.map, hPairs]
        rfl
      · obtain ⟨w, tail, rfl, hInstance, hTailOlds⟩ := hOlds
        have hBehind : remapReserved name ∉ done.map Prod.fst := hOut _ List.mem_cons_self
        have hDone : ∀ k ∈ rest.slots, k ∉ (done ++ [(remapReserved name, v)]).map Prod.fst := by
          intro k hk hMem
          rw [List.map_append, List.mem_append] at hMem
          rcases hMem with hMem | hMem
          · exact hOut k (List.mem_cons_of_mem _ hk) hMem
          · obtain rfl := List.mem_singleton.mp hMem
            exact hFresh hk
        have hRestSet := hSetPairs cls (done ++ [(remapReserved name, v)]) tail hTailOlds hDone
        rw [List.append_assoc, List.append_assoc] at hRestSet
        rw [setEach_append, setEach_below (getattr_behind hBehind cls w tail), modifyAttr_behind hBehind,
          hSetFront w hInstance, Option.map_some, Option.bind_some]
        exact hRestSet
    · intro bs fault hRead
      rw [readLeaves_append, readLeaves_below, Scan.map₂]
      cases hFirst : t.read bs with
      | error fault' =>
        rw [Scan.map₂, Scan.bind_of_error hFirst] at hRead
        cases hRead
        have hFront := hHead.raises bs _ hFirst
        exact Scan.bind_of_error (by rw [Scan.map, hFront]; rfl) _
      | ok r =>
        obtain ⟨v, i⟩ := r
        obtain ⟨front, hFront, _⟩ := hHead.reads bs v i hFirst
        rw [Scan.map₂, Scan.bind_of_ok hFirst] at hRead
        have hPairs := hTail.raises _ fault (Scan.map_eq_error (error_of_map hRead))
        rw [Scan.bind_of_ok (a := _) (n := i) (by rw [Scan.map, hFront]; rfl), Scan.map, hPairs]
        rfl

end

end XcRos.Genpy
