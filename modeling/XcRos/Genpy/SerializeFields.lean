import XcRos.Genpy.Emit
import XcRos.Genpy.Serialize

/-! # What the emitted serializer writes for fields

The code for a list of entries writes the bytes of one behind the other, and raises if one of them has
none or the object lacks it.
-/

namespace XcRos.Genpy

open XcRos.Foundation XcRos.Msg

def entriesSerial (o : PyVal) (entries : List Entry) : Option Bytes :=
  encodeEach (fun e => (o.at? e.1.2).bind e.2.serial) entries

theorem entriesSerial_singleton (o : PyVal) (e : Entry) : entriesSerial o [e] = (o.at? e.1.2).bind e.2.serial :=
  encodeEach_singleton _ e

theorem entriesSerial_eq (o : PyVal) (entries : List Entry) :
    entriesSerial o entries =
      encodeEach (fun leaf : Path × Ty => (o.at? leaf.1).bind leaf.2.serial) (entries.map fun e => (e.1.2, e.2)) := by
  rw [encodeEach_map]
  rfl

/-- In every frame where the scope is an object with parts of their types, the code writes these. -/
def Serializes (env : Env) (s : Scope) (entries : List Entry) (counter : Nat) (code : List Stmt) : Prop :=
  ∀ (f : Frame) (root : Var) (path : Path) (o : PyVal), f.Scoped s counter root path o →
    (∀ e ∈ entries, ∀ v, o.at? e.1.2 = some v → e.2.Shaped v) →
    Writes (execAll env code f) f s.depth counter (entriesSerial o entries)

section

variable {env : Env} {s : Scope}

theorem serializes_nil (counter : Nat) : Serializes env s [] counter [] :=
  fun f _ _ _ _ _ => Writes.nothing f s.depth counter

theorem serializes_append {front entries : List Entry} {counter counter' : Nat} {code more : List Stmt}
    (hCounter : counter ≤ counter') (hFront : Serializes env s front counter code)
    (hEntries : Serializes env s entries counter' more) : Serializes env s (front ++ entries) counter (code ++ more) := by
  intro f root path o hScope hShaped
  have hFirst := hFront f root path o hScope fun e he => hShaped e (List.mem_append_left _ he)
  rw [entriesSerial, encodeEach_append]
  refine hFirst.append fun f' hAgrees => ?_
  have hScope' := (hScope.agrees hAgrees).later hCounter
  have hSecond := hEntries f' root path o hScope' fun e he => hShaped e (List.mem_append_right _ he)
  exact hSecond.mono (Nat.le_refl _) hCounter

/-! ## Chunks of simple fields -/

theorem computeStructPattern_chunk {entries : List Entry} (hNonempty : entries ≠ [])
    (hSimple : ∀ e ∈ entries, ∃ simple, simpleOf e.1.1 = some simple ∧ e.2 = .simple simple) :
    ∃ simples : List Simple, entries.map Prod.snd = simples.map .simple ∧
      computeStructPattern ((entries.map Prod.fst).map Prod.fst) = some (simples.map Simple.letter) := by
  have hTypes : (entries.map Prod.fst).map Prod.fst ≠ [] := by simpa using hNonempty
  rw [computeStructPattern, if_neg hTypes]
  clear hTypes hNonempty
  induction entries with
  | nil => exact ⟨[], rfl, rfl⟩
  | cons e entries ih =>
    obtain ⟨simples, hSimples, hLetters⟩ := ih fun e he => hSimple e (List.mem_cons_of_mem _ he)
    obtain ⟨simple, hOf, hTy⟩ := hSimple e List.mem_cons_self
    refine ⟨simple :: simples, by rw [List.map_cons, hSimples, hTy, List.map_cons], ?_⟩
    rw [List.map_cons, List.map_cons, List.mapM_cons, hOf, hLetters]
    rfl

theorem formatItems_simples (simples : List Simple) :
    formatItems (reducePattern (simples.map Simple.letter)) = some ((simples.map Simple.code).map .value) :=
  formatItems_reducePattern (by
    induction simples with
    | nil => exact .nil
    | cons simple simples ih => exact .cons simple.ofLetter_letter ih)

theorem packItems_entries (o : PyVal) {entries : List Entry} {simples : List Simple}
    (hSimples : entries.map Prod.snd = simples.map .simple) :
    (entries.mapM fun e => o.at? e.1.2).bind (packItems ((simples.map Simple.code).map .value)) =
      entriesSerial o entries := by
  induction entries generalizing simples with
  | nil =>
    cases simples with
    | nil => rfl
    | cons simple simples => cases hSimples
  | cons e entries ih =>
    cases simples with
    | nil => cases hSimples
    | cons simple simples =>
      obtain ⟨hTy, hRest⟩ := List.cons.inj hSimples
      have hTail := ih hRest
      rw [List.mapM_cons, entriesSerial, encodeEach, hTy]
      rw [entriesSerial] at hTail
      cases o.at? e.1.2 with
      | none => rfl
      | some v =>
        rw [Option.bind_some, ← hTail]
        cases hParts : entries.mapM fun e => o.at? e.1.2 with
        | none => cases hPack : (Ty.simple simple).serial v <;> rfl
        | some vs => rfl

theorem serializes_chunk {entries : List Entry} (hNonempty : entries ≠ [])
    (hSimple : ∀ e ∈ entries, ∃ simple, simpleOf e.1.1 = some simple ∧ e.2 = .simple simple) :
    ∃ code, simpleSerializer true s (entries.map Prod.fst) = some code ∧
      ∀ counter, Serializes env s entries counter code := by
  obtain ⟨simples, hSimples, hPattern⟩ := computeStructPattern_chunk hNonempty hSimple
  have hWrite : ∀ (f : Frame) (o : PyVal) (vars : List Ref) (depth counter : Nat),
      vars.mapM f.get = entries.mapM (fun e => o.at? e.1.2) →
      Writes (execAll env [packStmt (simples.map Simple.letter) (vars.map .value)] f) f depth counter
        (entriesSerial o entries) := by
    intro f o vars depth counter hVars
    rw [← packItems_entries o hSimples, ← hVars, ← evalArgs_values]
    cases hArgs : evalArgs f (vars.map .value) with
    | none => exact Writes.write_none _ hArgs env depth counter
    | some vs =>
      have := Writes.write (.literal (reducePattern (simples.map Simple.letter))) hArgs env depth counter
      rwa [format_literal, structPack, formatItems_simples] at this
  rw [simpleSerializer, hPattern, Option.bind_some]
  refine ⟨_, rfl, fun counter f root path o hScope _ => ?_⟩
  split
  · rename_i hShort
    -- `_x` is another name for the object.
    have hWhole : o.at? [] = some o := rfl
    have hx : ¬ Kept s.depth counter .x := id
    rw [List.singleton_append, execAll, hScope.exec_name env .x hWhole, Option.bind_some]
    refine (hWrite _ o _ s.depth counter ?_).from_start rfl (agrees_bind hx f _)
    rw [List.map_map, List.mapM_map]
    exact congrArg (fun g => entries.mapM g) (funext fun e => hScope.get_named hx hWhole e.1.2)
  · rename_i hShort
    refine hWrite f o _ s.depth counter ?_
    rw [List.map_map, List.mapM_map]
    exact congrArg (fun g => entries.mapM g) (funext fun e => hScope.get e.1.2)

/-! ## Strings and byte arrays -/

theorem serializes_named {type : Str} {path : Path} {t : Ty} {code : List Stmt} {counter : Nat}
    (hCode : ∀ f : Frame, ∀ w, f.get ⟨.x, []⟩ = some w → t.Shaped w →
      Writes (execAll env code f) f s.depth counter (t.serial w)) :
    Serializes env s [((type, path), t)] counter (.name .x (s.ref path) :: code) := by
  intro f root p o hScope hShaped
  rw [entriesSerial_singleton, execAll]
  show Writes _ f s.depth counter ((o.at? path).bind t.serial)
  cases hPart : o.at? path with
  | none =>
    rw [hScope.exec_name_none env .x hPart]
    exact Writes.raised f s.depth counter
  | some w =>
    have hx : ¬ Kept s.depth counter .x := id
    have hGet := hScope.get_named hx hPart []
    rw [hScope.exec_name env .x hPart, Option.bind_some, Option.bind_some]
    exact (hCode _ w hGet (hShaped _ List.mem_cons_self w hPart)).from_start rfl (agrees_bind hx f _)

theorem serializes_string {path : Path} (counter : Nat) :
    Serializes env s [((str "string", path), .string)] counter
      (stringSerializer (str "string") none true (s.ref path) true) := by
  refine serializes_named fun f w hGet hShaped => ?_
  obtain ⟨text, rfl⟩ := hShaped
  exact writes_text hGet (show ¬ Kept s.depth counter .x from id) env

theorem serial_fixedList (n : Nat) (simple : Simple) (vs : List PyVal) :
    (Ty.array (some n) (.simple simple)).serial (.list vs) =
      if vs.length = reducedCount n then encodeEach simple.code.pack vs else none := by
  have hIs : (Ty.simple simple).isSimple = true := rfl
  have hEach : (Ty.simple simple).serial = simple.code.pack := rfl
  rw [Ty.serial, hIs, hEach]
  by_cases hCount : vs.length = reducedCount n <;> simp [hCount]

theorem exists_simple_of_isByte {t : Ty} (h : t.isByte = true) :
    ∃ simple : Simple, t = .simple simple ∧ simple.code = .int false 1 := by
  cases t with
  | simple simple => cases simple <;> first | exact ⟨_, rfl, rfl⟩ | cases h
  | string | array | message => cases h

theorem serializes_bytes {type base : Str} {path : Path} {t : Ty} (hBase : isBytes base = true) (hByte : t.isByte = true)
    (length : Option Nat) (counter : Nat) :
    Serializes env s [((type, path), .array length t)] counter (stringSerializer base length true (s.ref path) true) := by
  obtain ⟨simple, rfl, hElement⟩ := exists_simple_of_isByte hByte
  cases length with
  | none =>
    have hCode : stringSerializer base none true (s.ref path) true =
        .name .x (s.ref path) :: [.takeLength ⟨.x, []⟩,
          .ifList ⟨.x, []⟩ (.write (.withLength (str "I") 'B') [.length, .star ⟨.x, []⟩])
            (.write (.withLength (str "I") 's') [.length, .value ⟨.x, []⟩])] := by
      simp [stringSerializer, hBase, lenSerializer]
    rw [hCode]
    refine serializes_named fun f w hGet hShaped => ?_
    obtain ⟨_, bs, rfl⟩ | ⟨vs, rfl, _⟩ := hShaped
    · rw [Ty.serial]
      exact writes_bytes hGet s.depth counter env
    · have hEach : (Ty.simple simple).serial = simple.code.pack := rfl
      rw [Ty.serial, hEach, hElement]
      exact writes_byteList hGet s.depth counter env
  | some n =>
    have hCode : stringSerializer base (some n) true (s.ref path) true =
        .name .x (s.ref path) :: [.ifList ⟨.x, []⟩ (packStmt (decimal n ++ ['B']) [.star ⟨.x, []⟩])
          (packStmt (decimal n ++ ['s']) [.value ⟨.x, []⟩])] := by
      simp [stringSerializer, hBase]
    rw [hCode]
    refine serializes_named fun f w hGet hShaped => ?_
    obtain ⟨_, bs, rfl⟩ | ⟨vs, rfl, _⟩ := hShaped
    · rw [Ty.serial]
      exact writes_fixedBytes hGet n s.depth counter env
    · rw [serial_fixedList, hElement]
      exact writes_fixedByteList hGet n s.depth counter env

/-! ## Other arrays -/

theorem serializes_list {type : Str} {path : Path} {t : Ty} (hByte : t.isByte = false) {length : Option Nat}
    {code : List Stmt} {counter : Nat}
    (hNone : ∀ f : Frame, f.get (s.ref path) = none → execAll env code f = none)
    (hCode : ∀ (f : Frame) (root : Var) (p : Path) (o : PyVal), f.Scoped s counter root p o →
      ∀ vs, o.at? path = some (.list vs) → (∀ w ∈ vs, t.Shaped w) →
      Writes (execAll env code f) f s.depth counter ((Ty.array length t).serial (.list vs))) :
    Serializes env s [((type, path), .array length t)] counter code := by
  intro f root p o hScope hShaped
  rw [entriesSerial_singleton]
  show Writes _ f s.depth counter ((o.at? path).bind (Ty.array length t).serial)
  cases hPart : o.at? path with
  | none =>
    rw [hNone f (by rw [hScope.get, hPart])]
    exact Writes.raised f s.depth counter
  | some w =>
    have hValue := hShaped _ List.mem_cons_self w hPart
    obtain ⟨hIsByte, _⟩ | ⟨vs, rfl, hEach⟩ := hValue
    · rw [hByte] at hIsByte
      cases hIsByte
    · exact hCode f root p o hScope vs hPart hEach

theorem writes_length {f : Frame} {r : Ref} {vs : List PyVal} (hGet : f.get r = some (.list vs)) {code : List Stmt}
    {depth counter : Nat} {result : Option Bytes}
    (hCode : ∀ f' : Frame, f'.length = vs.length → (∀ y, f'.vars y = f.vars y) →
      Writes (execAll env code f') f' depth counter result) :
    Writes (execAll env ([.takeLength r, int32Pack] ++ code) f) f depth counter
      ((packLength vs.length).bind fun bs => result.map (bs ++ ·)) := by
  let f₁ : Frame := { f with length := vs.length }
  have hLength : (Stmt.takeLength r).exec env f = some f₁ := by
    simp [Stmt.exec, hGet, PyVal.len, PyVal.elements, f₁]
  have hWrite : int32Pack.exec env f₁ = (packLength vs.length).map fun bs => { f₁ with buff := f₁.buff ++ bs } := by
    have hArgs : evalArgs f₁ [.length] = some [.int vs.length] := by simp [evalArgs, Arg.eval, f₁]
    rw [int32Pack, Stmt.exec, hArgs, Option.bind_some, format_literal, structPack_length]
  have hFront : execAll env [.takeLength r, int32Pack] f =
      (packLength vs.length).map fun bs => { f₁ with buff := f₁.buff ++ bs } := by
    rw [execAll, hLength, Option.bind_some, execAll_singleton, hWrite]
  cases hBytes : packLength vs.length with
  | none =>
    rw [hBytes] at hFront
    exact Writes.of_raises hFront code depth counter
  | some bs =>
    rw [hBytes, Option.map_some] at hFront
    have hRest := hCode { f₁ with buff := f₁.buff ++ bs } rfl fun _ => rfl
    rw [execAll_append, hFront, Option.bind_some, Option.bind_some]
    constructor
    · intro cs hResult
      obtain ⟨rest, hSome, rfl⟩ := Option.map_eq_some_iff.mp hResult
      obtain ⟨f', hRun, hBuff, hAgrees⟩ := hRest.writes rest hSome
      exact ⟨f', hRun, by rw [hBuff, List.append_assoc], hAgrees⟩
    · intro hNone
      exact hRest.raises (Option.map_eq_none_iff.mp hNone)

theorem get_congr {f f' : Frame} (h : ∀ y, f'.vars y = f.vars y) (r : Ref) : f'.get r = f.get r := by
  have hVars : f'.vars = f.vars := funext h
  rw [Frame.get, Frame.get, Frame.place, Frame.place, hVars]
  simp only [Frame.valueOf, hVars]

theorem serial_list (length : Option Nat) {t : Ty} (hSimple : t.isSimple = false) (vs : List PyVal) :
    (Ty.array length t).serial (.list vs) =
      match length with
      | none => (packLength vs.length).bind fun front => (encodeEach t.serial vs).map (front ++ ·)
      | some _ => encodeEach t.serial vs := by
  cases length with
  | none => rw [Ty.serial]
  | some n => rw [Ty.serial, hSimple, if_neg (by simp)]

theorem serializes_simpleArray {type base : Str} {simple : Simple} {path : Path} (hSimple : simpleOf base = some simple)
    (hByte : isBytes base = false) (arity : Arity) (ctx : MsgContext)
    (sub : Scope → Str → Fields → Nat → Option (List Stmt × Nat)) (package : Str) (counter : Nat) :
    Emits (arraySerializer ctx true sub package base arity s path counter) counter
      (Serializes env s [((type, path), .array (arrayLen arity) (.simple simple))] counter) := by
  have hNotByte : (Ty.simple simple).isByte = false := by
    rw [← hByte, ← name_of_simpleOf hSimple]
    cases simple <;> rfl
  rw [arraySerializer, hByte, if_neg Bool.false_ne_true, hSimple]
  cases hLength : arrayLen arity with
  | none =>
    refine Emits.of_eq (serializes_list hNotByte (fun f hNone => ?_) fun f root p o hScope vs hPart hEach => ?_)
    · simp [lenSerializer, execAll, Stmt.exec, hNone]
    · have hGet : f.get (s.ref path) = some (.list vs) := by rw [hScope.get, hPart]
      rw [Ty.serial]
      refine writes_length hGet fun f' hCount hVars => ?_
      have hArgs : evalArgs { f' with pattern := decimal f'.length ++ [simple.letter] } [.star (s.ref path)] = some vs := by
        have hGet' : Frame.get { f' with pattern := decimal f'.length ++ [simple.letter] } (s.ref path) = some (.list vs) :=
          (get_congr hVars _).trans hGet
        simp [evalArgs, Arg.eval, hGet', PyVal.elements]
      have hWrite := Writes.write .pattern hArgs env s.depth counter
      rw [show Frame.format _ .pattern = decimal f'.length ++ [simple.letter] from rfl, structPack_array, hCount,
        if_pos rfl] at hWrite
      have hFront : execAll env [.setPattern simple.letter] f' = some { f' with pattern := decimal f'.length ++ [simple.letter] } := rfl
      rw [hCount] at hFront
      exact hWrite.after hFront rfl fun _ _ => rfl
  | some n =>
    refine Emits.of_eq (serializes_list hNotByte (fun f hNone => ?_) fun f root p o hScope vs hPart hEach => ?_)
    · simp [packStmt, execAll, Stmt.exec, evalArgs, Arg.eval, hNone]
    · have hGet : f.get (s.ref path) = some (.list vs) := by rw [hScope.get, hPart]
      have hArgs : evalArgs f [.star (s.ref path)] = some vs := by simp [evalArgs, Arg.eval, hGet, PyVal.elements]
      have hWrite := Writes.write (.literal (reducePattern (decimal n ++ [simple.letter]))) hArgs env s.depth counter
      rw [format_literal, structPack_reduced] at hWrite
      rw [serial_fixedList]
      exact hWrite

theorem serializes_loop {type : Str} {path : Path} {t : Ty} (hByte : t.isByte = false) (hSimple : t.isSimple = false)
    {length : Option Nat} {code : List Stmt} {counter : Nat}
    (hBody : ∀ f : Frame, ∀ w, f.vars (.val s.depth) = some (.value w) → t.Shaped w →
      Writes (execAll env code f) f s.depth counter (t.serial w)) :
    Serializes env s [((type, path), .array length t)] counter
      ((if length.isNone then lenSerializer (s.ref path) false true else []) ++ [.forEach (.val s.depth) (s.ref path) code]) := by
  have hLoop : ∀ f : Frame, ∀ vs, f.get (s.ref path) = some (.list vs) → (∀ w ∈ vs, t.Shaped w) →
      Writes (execAll env [.forEach (.val s.depth) (s.ref path) code] f) f s.depth counter (encodeEach t.serial vs) := by
    intro f vs hGet hEach
    refine Writes.forEach hGet (not_kept_val s.depth counter) fun f' _ w hw => ?_
    exact hBody _ w (f'.bind_vars _ _) (hEach w hw)
  refine serializes_list hByte (fun f hNone => ?_) fun f root p o hScope vs hPart hEach => ?_
  · cases length with
    | none => simp [lenSerializer, execAll, Stmt.exec, hNone]
    | some n => simp [execAll, Stmt.exec, hNone]
  · have hGet : f.get (s.ref path) = some (.list vs) := by rw [hScope.get, hPart]
    rw [serial_list length hSimple]
    cases length with
    | none => exact writes_length hGet fun f' _ hVars => hLoop f' vs ((get_congr hVars _).trans hGet) hEach
    | some n => exact hLoop f vs hGet hEach

end

/-! ## Embedded messages -/

theorem lookup_below {name : Str} {t : Ty} {rest : Members} (hSlots : (Members.cons name t rest).slots.Nodup) {v : PyVal}
    {more : List (Str × PyVal)} : ∀ k ∈ rest.slots, ((remapReserved name, v) :: more).lookup k = more.lookup k := by
  intro k hk
  have hNe : k ≠ remapReserved name := by
    rintro rfl
    exact (List.nodup_cons.mp hSlots).1 hk
  have hKey : (k == remapReserved name) = false := beq_false_of_ne hNe
  rw [List.lookup_cons, hKey]

theorem members_part {members : Members} {attrs : List (Str × PyVal)} (hShaped : members.Shaped attrs)
    (hSlots : members.slots.Nodup) :
    ∀ member ∈ members.toList, ∃ v, attrs.lookup (remapReserved member.1) = some v ∧ member.2.Shaped v := by
  induction members using Members.listInduction generalizing attrs with
  | nil => exact fun _ h => absurd h List.not_mem_nil
  | cons name t rest ih =>
    obtain ⟨v, more, rfl, hHead, hRest⟩ := hShaped
    intro member hMember
    rcases List.mem_cons.mp hMember with rfl | hMember
    · exact ⟨v, List.lookup_cons_self, hHead⟩
    · obtain ⟨w, hw, hPart⟩ := ih hRest (List.nodup_cons.mp hSlots).2 member hMember
      refine ⟨w, ?_, hPart⟩
      rw [lookup_below hSlots _ (List.mem_map.mpr ⟨member, hMember, rfl⟩), hw]

theorem serial_members {members : Members} {attrs : List (Str × PyVal)} (hShaped : members.Shaped attrs)
    (hSlots : members.slots.Nodup) (look : Str → Option PyVal) (hLook : ∀ k ∈ members.slots, look k = attrs.lookup k) :
    encodeEach (fun member => (look (remapReserved member.1)).bind member.2.serial) members.toList = members.serial attrs := by
  induction members using Members.listInduction generalizing attrs with
  | nil =>
    obtain rfl := hShaped
    rfl
  | cons name t rest ih =>
    obtain ⟨v, more, rfl, hHead, hRest⟩ := hShaped
    have hFirst : look (remapReserved name) = some v := by
      rw [hLook _ List.mem_cons_self, List.lookup_cons_self]
    have hBytes := ih hRest (List.nodup_cons.mp hSlots).2 fun k hk => by
      rw [hLook k (List.mem_cons_of_mem _ hk), lookup_below hSlots k hk]
    rw [Members.toList, encodeEach, hFirst, hBytes, Members.serial, Option.bind_some]

def WritesMembers (env : Env) (s : Scope) (members : Members) (counter : Nat) (code : List Stmt) : Prop :=
  ∀ (f : Frame) (root : Var) (path : Path) (cls : Str) (attrs : List (Str × PyVal)),
    f.Scoped s counter root path (.obj cls attrs) → members.Shaped attrs →
    Writes (execAll env code f) f s.depth counter (members.serial attrs)

/-- `sub` emits code for embedded specifications that writes their messages. -/
def SubWrites (env : Env) (ctx : MsgContext) (resolves : MsgSpec → Option Members)
    (sub : Scope → Str → Fields → Nat → Option (List Stmt × Nat)) : Prop :=
  ∀ spec members, resolves spec = some members → members.slots.Nodup → ∀ s counter,
    Emits (sub s spec.package (makePythonSafe (specFields spec)) counter) counter (WritesMembers env s members counter)

section

variable {env : Env} {ctx : MsgContext} {resolves : MsgSpec → Option Members}
  {sub : Scope → Str → Fields → Nat → Option (List Stmt × Nat)} {s : Scope} {package : Str}

theorem serializes_message {type : Str} {path : Path} {cls : Str} {members : Members} {counter : Nat} {code : List Stmt}
    (hCode : WritesMembers env ⟨.v (counter + 1), s.depth + 1⟩ members (counter + 1) code) :
    Serializes env s [((type, path), .message cls members)] counter (.name (.v (counter + 1)) (s.ref path) :: code) := by
  intro f root p o hScope hShaped
  have hv := not_kept_v s.depth counter
  rw [entriesSerial_singleton, execAll]
  show Writes _ f s.depth counter ((o.at? path).bind (Ty.message cls members).serial)
  cases hPart : o.at? path with
  | none =>
    rw [hScope.exec_name_none env _ hPart]
    exact Writes.raised f s.depth counter
  | some w =>
    obtain ⟨attrs, rfl, hMembers⟩ := hShaped _ List.mem_cons_self w hPart
    have hKept : Kept (s.depth + 1) (counter + 1) (.v (counter + 1)) := Nat.le_refl _
    have hNamed := hScope.named hv hPart hKept (Nat.le_succ _) (Nat.le_succ _)
    rw [hScope.exec_name env _ hPart, Option.bind_some, Option.bind_some, Ty.serial]
    refine ((hCode _ root _ cls attrs hNamed hMembers).mono (Nat.le_succ _) (Nat.le_succ _)).from_start rfl ?_
    exact agrees_bind hv f _

theorem emits_array (hSub : SubWrites env ctx resolves sub) {type base : Str} {path : Path} {t : Ty}
    (hBase : ResolvedBase resolves ctx base t) (arity : Arity) (counter : Nat) :
    Emits (arraySerializer ctx true sub package base arity s path counter) counter
      (Serializes env s [((type, path), .array (arrayLen arity) t)] counter) := by
  have hBytes := isBytes_iff hBase
  cases hByte : t.isByte with
  | true =>
    rw [hByte] at hBytes
    rw [arraySerializer, hBytes, if_pos rfl]
    exact Emits.of_eq (serializes_bytes hBytes hByte (arrayLen arity) counter)
  | false =>
    rw [hByte] at hBytes
    cases hBase with
    | simple hSimple => exact serializes_simpleArray hSimple hBytes arity ctx sub package counter
    | string =>
      rw [arraySerializer, hBytes, if_neg Bool.false_ne_true, simpleOf_string]
      refine Emits.of_eq (serializes_loop hByte rfl fun f w hVar hShaped => ?_)
      obtain ⟨text, rfl⟩ := hShaped
      have hGet : f.get ⟨.val s.depth, []⟩ = some (.str text) := by simp [Frame.get, Frame.place, Frame.valueOf, hVar, PyVal.at?]
      exact writes_text hGet (not_kept_val s.depth counter) env
    | @message base spec members hSimple hString hName hSpec hMembers hSlots =>
      obtain ⟨code, counter', hCode, hCounter, hWrites⟩ :=
        hSub spec members hMembers hSlots ⟨.val s.depth, s.depth + 1⟩ counter
      rw [arraySerializer, hBytes, if_neg Bool.false_ne_true, hSimple]
      dsimp only
      rw [if_neg hString, hSpec, Option.bind_some, hCode, Option.bind_some]
      refine ⟨_, counter', rfl, hCounter, serializes_loop hByte rfl fun f w hVar hShaped => ?_⟩
      obtain ⟨attrs, rfl, hEach⟩ := hShaped
      have hScope : f.Scoped ⟨.val s.depth, s.depth + 1⟩ counter (.val s.depth) [] (.obj base attrs) :=
        Frame.scoped_value hVar (Nat.lt_succ_self s.depth)
      rw [Ty.serial]
      exact (hWrites f _ [] base attrs hScope hEach).mono (Nat.le_succ _) (Nat.le_refl _)

theorem emits_complex (hSub : SubWrites env ctx resolves sub) {type : Str} {path : Path} {t : Ty}
    (hResolved : Resolved resolves ctx type t) (hComplex : isSimple type = false) (counter : Nat) :
    Emits (complexSerializer ctx true sub package type s path counter) counter
      (Serializes env s [((type, path), t)] counter) := by
  cases hResolved with
  | scalar hParse hBracket hBase =>
    cases hBase with
    | simple hSimple =>
      rw [isSimple, hSimple] at hComplex
      cases hComplex
    | string =>
      rw [complexSerializer_string]
      exact Emits.of_eq (serializes_string counter)
    | @message base spec members hSimple hString hName hSpec hMembers hSlots =>
      obtain ⟨code, counter', hCode, hCounter, hWrites⟩ :=
        hSub spec members hMembers hSlots ⟨.v (counter + 1), s.depth + 1⟩ (counter + 1)
      rw [complexSerializer_message hParse hBracket hString hName hSpec, hCode]
      exact ⟨_, counter', rfl, by omega, serializes_message hWrites⟩
  | @array base arity elem hParse hArity hSimple hBracket hBase =>
    rw [complexSerializer_array hParse hArity]
    exact emits_array hSub hBase arity counter

end

theorem emits_entries {env : Env} {ctx : MsgContext} {resolves : MsgSpec → Option Members} {fuel : Nat}
    (hSub : SubWrites env ctx resolves (serializer ctx true fuel)) (s : Scope) (package : Str) {entries : List Entry}
    (hEntries : ∀ e ∈ entries, Resolved resolves ctx e.1.1 e.2) (counter : Nat) :
    Emits (serializer ctx true (fuel + 1) s package (entries.map Prod.fst) counter) counter
      (Serializes env s entries counter) := by
  show Emits (if true = true ∧ entries.map Prod.fst = [] then _ else _) counter _
  split
  · rename_i hEmpty
    obtain rfl := List.map_eq_nil_iff.mp hEmpty.2
    refine Emits.of_eq fun f root path o _ _ => ?_
    exact Writes.nothing f s.depth counter
  · exact emits_serializeFields (fun counter => serializes_nil counter)
      (fun _ _ _ _ _ _ hCounter hFront hMore => serializes_append hCounter hFront hMore)
      (fun _ hNonempty hSimple => serializes_chunk hNonempty hSimple) hEntries
      (fun e he hComplex counter => emits_complex hSub (hEntries e he) hComplex counter) counter

theorem at?_attribute (cls : Str) (attrs : List (Str × PyVal)) (name : Str) :
    (PyVal.obj cls attrs).at? [name] = attrs.lookup name := by
  rw [PyVal.at?, PyVal.getattr]
  cases attrs.lookup name <;> rfl

theorem subWrites_serializer (env : Env) (ctx : MsgContext) (fuel : Nat) :
    SubWrites env ctx (resolve ctx fuel) (serializer ctx true fuel) := by
  induction fuel with
  | zero =>
    rintro spec members ⟨⟩
  | succ fuel ih =>
    intro spec members hMembers hSlots s counter
    obtain ⟨entries, hEntries⟩ := exists_memberEntries (resolve ctx fuel) hMembers
    obtain ⟨code, counter', hCode, hCounter, hWrites⟩ := emits_entries ih s spec.package hEntries.resolved counter
    rw [hEntries.fields] at hCode
    refine ⟨code, counter', hCode, hCounter, fun f root path cls attrs hScope hShaped => ?_⟩
    have hBytes := serial_members hShaped hSlots (fun k => attrs.lookup k) fun _ _ => rfl
    have hSerial : entriesSerial (.obj cls attrs) entries = members.serial attrs := by
      rw [entriesSerial_eq, hEntries.slots, encodeEach_map, ← hBytes]
      refine encodeEach_congr fun member _ => ?_
      rw [at?_attribute]
    rw [← hSerial]
    refine hWrites f root path _ hScope fun e he v hv => ?_
    have hMem : (e.1.2, e.2) ∈ members.toList.map fun member => ([remapReserved member.1], member.2) :=
      hEntries.slots ▸ List.mem_map.mpr ⟨e, he, rfl⟩
    obtain ⟨member, hMember, hEq⟩ := List.mem_map.mp hMem
    obtain ⟨w, hw, hPart⟩ := members_part hShaped hSlots member hMember
    obtain ⟨hPath, hTy⟩ := Prod.mk.inj hEq
    rw [← hPath, at?_attribute, hw] at hv
    obtain rfl := Option.some.inj hv
    exact hTy ▸ hPart

end XcRos.Genpy
