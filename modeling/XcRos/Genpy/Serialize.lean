import XcRos.Genpy.Frame
import XcRos.Genpy.Resolve

/-! # What the emitted serializer writes

The bytes that the code for a type writes for a value, exactly: `serial` gives them with the lengths
that the patterns are left with, and is `none` where the code raises.
-/

namespace XcRos.Genpy

open XcRos.Foundation XcRos.Msg

/-- A length as `_struct_I` packs it. -/
def packLength (n : Nat) : Option Bytes := (Code.int false 4).pack (.int n)

/-- A byte string under the format `ns`. -/
def cut (n : Nat) (bs : Bytes) : Bytes := bs.take n ++ List.replicate (n - bs.length) 0

mutual

def Ty.serial : Ty → PyVal → Option Bytes
  | .simple s, v => s.code.pack v
  | .string, .str s => (encodeUtf8 s).bind fun bs => (packLength bs.length).map (· ++ bs)
  | .array none _, .bytes bs => (packLength bs.length).map (· ++ bs)
  | .array (some n) _, .bytes bs => some (cut (reducedCount n) bs)
  | .array none t, .list vs => (packLength vs.length).bind fun front => (encodeEach t.serial vs).map (front ++ ·)
  | .array (some n) t, .list vs => if t.isSimple ∧ vs.length ≠ reducedCount n then none else encodeEach t.serial vs
  | .message _ members, .obj _ attrs => members.serial attrs
  | _, _ => none

def Members.serial : Members → List (Str × PyVal) → Option Bytes
  | .cons _ t rest, (_, v) :: attrs => (t.serial v).bind fun front => (rest.serial attrs).map (front ++ ·)
  | _, _ => some []

end

mutual

/-- The values of a type with numbers that need not fit, and with lists of any length. -/
def Ty.Shaped : Ty → PyVal → Prop
  | .simple _, _ => True
  | .string, v => ∃ s, v = .str s
  | .array _ t, v => (t.isByte = true ∧ ∃ bs, v = .bytes bs) ∨ ∃ vs, v = .list vs ∧ ∀ w ∈ vs, t.Shaped w
  | .message cls members, v => ∃ attrs, v = .obj cls attrs ∧ members.Shaped attrs

def Members.Shaped : Members → List (Str × PyVal) → Prop
  | .nil, attrs => attrs = []
  | .cons name t rest, attrs => ∃ v more, attrs = (remapReserved name, v) :: more ∧ t.Shaped v ∧ rest.Shaped more

end

mutual

theorem Ty.shaped_of_canonical : (t : Ty) → (v : PyVal) → t.Canonical v → t.Shaped v
  | .simple _, _, _ => trivial
  | .string, _, h => h
  | .array length t, v, h => by
    rw [Ty.Canonical] at h
    split at h
    · rename_i hByte
      obtain ⟨bs, rfl, _⟩ := h
      exact .inl ⟨hByte, bs, rfl⟩
    · obtain ⟨vs, rfl, _, hEach⟩ := h
      exact .inr ⟨vs, rfl, fun w hw => t.shaped_of_canonical w (hEach w hw)⟩
  | .message _ members, _, ⟨attrs, hObj, hMembers, _⟩ => ⟨attrs, hObj, members.shaped_of_canonical attrs hMembers⟩

theorem Members.shaped_of_canonical : (members : Members) → (attrs : List (Str × PyVal)) → members.Canonical attrs →
    members.Shaped attrs
  | .nil, _, h => h
  | .cons _ t rest, _, ⟨v, more, hAttrs, hHead, hRest⟩ =>
    ⟨v, more, hAttrs, t.shaped_of_canonical v hHead, rest.shaped_of_canonical more hRest⟩

end

/-- A run from `f` writes these bytes, or raises, and leaves the kept variables alone. -/
structure Writes (run : Option Frame) (f : Frame) (depth counter : Nat) (result : Option Bytes) : Prop where
  writes : ∀ bs, result = some bs → ∃ f', run = some f' ∧ f'.buff = f.buff ++ bs ∧ Agrees depth counter f f'
  raises : result = none → run = none

namespace Writes

variable {env : Env} {code more : List Stmt} {run : Option Frame} {f : Frame} {depth counter : Nat}
  {result rest : Option Bytes}

theorem nothing (f : Frame) (depth counter : Nat) : Writes (some f) f depth counter (some []) where
  writes := by
    rintro _ ⟨⟩
    exact ⟨f, rfl, (List.append_nil _).symm, Agrees.refl depth counter f⟩
  raises := by rintro ⟨⟩

theorem raised (f : Frame) (depth counter : Nat) : Writes none f depth counter none :=
  ⟨by rintro _ ⟨⟩, fun _ => rfl⟩

theorem mono {depth' counter' : Nat} (h : Writes run f depth' counter' result) (hDepth : depth ≤ depth')
    (hCounter : counter ≤ counter') : Writes run f depth counter result where
  writes := by
    intro bs hResult
    obtain ⟨f', hRun, hBuff, hAgrees⟩ := h.writes bs hResult
    exact ⟨f', hRun, hBuff, hAgrees.mono hDepth hCounter⟩
  raises := h.raises

theorem from_start {f' : Frame} (h : Writes run f' depth counter result) (hBuff : f'.buff = f.buff)
    (hAgrees : Agrees depth counter f f') : Writes run f depth counter result where
  writes := by
    intro bs hResult
    obtain ⟨f'', hRun, hBuff', hAgrees'⟩ := h.writes bs hResult
    exact ⟨f'', hRun, by rw [hBuff', hBuff], hAgrees.trans hAgrees'⟩
  raises := h.raises

theorem bind {next : Frame → Option Frame} (h : Writes run f depth counter result)
    (hNext : ∀ f', Agrees depth counter f f' → Writes (next f') f' depth counter rest) :
    Writes (run.bind next) f depth counter (result.bind fun bs => rest.map (bs ++ ·)) where
  writes := by
    intro bs hResult
    obtain ⟨front, hFront, hRest⟩ := Option.bind_eq_some_iff.mp hResult
    obtain ⟨cs, hCs, rfl⟩ := Option.map_eq_some_iff.mp hRest
    obtain ⟨f', hRun, hBuff, hAgrees⟩ := h.writes front hFront
    obtain ⟨f'', hRun', hBuff', hAgrees'⟩ := (hNext f' hAgrees).writes cs hCs
    refine ⟨f'', ?_, by rw [hBuff', hBuff, List.append_assoc], hAgrees.trans hAgrees'⟩
    rw [hRun]
    exact hRun'
  raises := by
    intro hResult
    cases hFront : result with
    | none => rw [h.raises hFront]; rfl
    | some front =>
      obtain ⟨f', hRun, _, hAgrees⟩ := h.writes front hFront
      rw [hFront, Option.bind_some, Option.map_eq_none_iff] at hResult
      rw [hRun]
      exact (hNext f' hAgrees).raises hResult

theorem append (h : Writes (execAll env code f) f depth counter result)
    (hMore : ∀ f', Agrees depth counter f f' → Writes (execAll env more f') f' depth counter rest) :
    Writes (execAll env (code ++ more) f) f depth counter (result.bind fun bs => rest.map (bs ++ ·)) := by
  rw [execAll_append]
  exact h.bind hMore

theorem after {front : List Stmt} {f' : Frame} (h : Writes (execAll env code f') f' depth counter result)
    (hRun : execAll env front f = some f') (hBuff : f'.buff = f.buff) (hAgrees : Agrees depth counter f f') :
    Writes (execAll env (front ++ code) f) f depth counter result := by
  rw [execAll_append, hRun]
  exact h.from_start hBuff hAgrees

theorem of_raises {front : List Stmt} (hRun : execAll env front f = none) (code : List Stmt) (depth counter : Nat) :
    Writes (execAll env (front ++ code) f) f depth counter none := by
  rw [execAll_append, hRun]
  exact raised f depth counter

theorem write (fmt : Fmt) {args : List Arg} {vs : List PyVal} (hArgs : evalArgs f args = some vs) (env : Env)
    (depth counter : Nat) :
    Writes (execAll env [.write fmt args] f) f depth counter (structPack (f.format fmt) vs) := by
  rw [execAll_singleton, Stmt.exec, hArgs, Option.bind_some]
  cases structPack (f.format fmt) vs with
  | none => exact raised f depth counter
  | some bs => exact ⟨by rintro _ ⟨⟩; exact ⟨_, rfl, rfl, fun _ _ => rfl⟩, by rintro ⟨⟩⟩

theorem write_none (fmt : Fmt) {args : List Arg} (hArgs : evalArgs f args = none) (env : Env) (depth counter : Nat) :
    Writes (execAll env [.write fmt args] f) f depth counter none := by
  rw [execAll_singleton, Stmt.exec, hArgs]
  exact raised f depth counter

theorem orelse {r : Ref} {v : PyVal} {stmt : Stmt} (h : Writes (execAll env [stmt] f) f depth counter result)
    (body : Stmt) (hGet : f.get r = some v) (hList : v.isList = false) :
    Writes (execAll env [.ifList r body stmt] f) f depth counter result := by
  rw [execAll_singleton] at h ⊢
  rwa [Stmt.exec, hGet, Option.bind_some, if_neg (by simp [hList])]

theorem body {r : Ref} {v : PyVal} {stmt : Stmt} (h : Writes (execAll env [stmt] f) f depth counter result)
    (orelse : Stmt) (hGet : f.get r = some v) (hList : v.isList = true) :
    Writes (execAll env [.ifList r stmt orelse] f) f depth counter result := by
  rw [execAll_singleton] at h ⊢
  rwa [Stmt.exec, hGet, Option.bind_some, if_pos hList]

theorem forEach {r : Ref} {vs : List PyVal} (hGet : f.get r = some (.list vs)) {y : Var} (hy : ¬ Kept depth counter y)
    {enc : PyVal → Option Bytes}
    (hBody : ∀ f', Agrees depth counter f f' → ∀ w ∈ vs,
      Writes (execAll env code (f'.bind y (.value w))) (f'.bind y (.value w)) depth counter (enc w)) :
    Writes (execAll env [.forEach y r code] f) f depth counter (encodeEach enc vs) := by
  rw [execAll_singleton, Stmt.exec, hGet]
  show Writes (vs.foldlM (fun f v => execAll env code (f.bind y (.value v))) f) f depth counter (encodeEach enc vs)
  clear hGet
  induction vs generalizing f with
  | nil => exact nothing f depth counter
  | cons w vs ih =>
    rw [List.foldlM_cons, encodeEach]
    have hBind := hBody f (Agrees.refl depth counter f) w List.mem_cons_self
    have hFirst : Writes _ f depth counter (enc w) := hBind.from_start rfl (agrees_bind hy f _)
    refine hFirst.bind fun f' hAgrees => ?_
    exact ih fun f'' hLater v hv => hBody f'' (hAgrees.trans hLater) v (List.mem_cons_of_mem w hv)

end Writes

/-! ## Formats with a length -/

theorem cut_length (bs : Bytes) : cut bs.length bs = bs := by
  rw [cut, List.take_length, Nat.sub_self, List.replicate_zero, List.append_nil]

theorem structPack_length (n : Nat) : structPack (str "I") [.int n] = packLength n := by
  have hItems : formatItems (str "I") = some [.value (.int false 4)] := by decide
  rw [structPack, hItems, Option.bind_some, packItems, packLength, Item.pack]
  cases (Code.int false 4).pack (.int n) with
  | none => rfl
  | some bs => simp [packItems]

theorem structPack_counted (n : Nat) (bs : Bytes) :
    structPack (str "I" ++ (decimal n ++ ['s'])) [.int n, .bytes bs] = (packLength n).map (· ++ cut n bs) := by
  have hItems : formatItems (str "I" ++ (decimal n ++ ['s'])) = some [.value (.int false 4), .blob n] := by
    have hFront : itemsFrom none (str "I") = some [.value (.int false 4)] := by decide
    rw [formatItems, itemsFrom_append hFront, formatItems_decimal n (by decide)]
    rfl
  rw [structPack, hItems, Option.bind_some, packItems, packItems, packLength, Item.pack, Item.pack]
  cases (Code.int false 4).pack (.int n) with
  | none => rfl
  | some front => simp [packItems, cut]

theorem structPack_bytes (n : Nat) (bs : Bytes) :
    structPack (reducePattern (decimal n ++ ['s'])) [.bytes bs] = some (cut (reducedCount n) bs) := by
  have hItems : formatItems (reducePattern (decimal n ++ ['s'])) = some [.blob (reducedCount n)] := by
    rw [formatItems_reducePattern_counted n (by decide) (by decide)]
    rfl
  rw [structPack, hItems, Option.bind_some]
  simp [packItems, Item.pack, cut]

theorem formatItems_array (n : Nat) (s : Simple) :
    formatItems (decimal n ++ [s.letter]) = some (List.replicate n (.value s.code)) := by
  rw [formatItems_decimal n (letter_not_digit s.ofLetter_letter).1, countedItems_letter s.ofLetter_letter]
  simp [formatItems, itemsFrom]

theorem structPack_array (n : Nat) (s : Simple) (vs : List PyVal) :
    structPack (decimal n ++ [s.letter]) vs = if vs.length = n then encodeEach s.code.pack vs else none := by
  rw [structPack, formatItems_array, Option.bind_some, packItems_replicate]

theorem letter_ne_percent (s : Simple) : s.letter ≠ '%' := by cases s <;> decide

theorem structPack_reduced (n : Nat) (s : Simple) (vs : List PyVal) :
    structPack (reducePattern (decimal n ++ [s.letter])) vs =
      if vs.length = reducedCount n then encodeEach s.code.pack vs else none := by
  rw [structPack, formatItems_reducePattern_counted n (letter_not_digit s.ofLetter_letter).1 (letter_ne_percent s),
    countedItems_letter s.ofLetter_letter, Option.bind_some, packItems_replicate]

theorem structPack_countedList (n : Nat) (vs : List PyVal) :
    structPack (str "I" ++ (decimal n ++ ['B'])) (.int n :: vs) =
      (packLength n).bind fun front =>
        (if vs.length = n then encodeEach (Code.int false 1).pack vs else none).map (front ++ ·) := by
  have hItems : formatItems (str "I" ++ (decimal n ++ ['B'])) =
      some (.value (.int false 4) :: List.replicate n (.value (.int false 1))) := by
    have hFront : itemsFrom none (str "I") = some [.value (.int false 4)] := by decide
    have hArray : formatItems (decimal n ++ ['B']) = some (List.replicate n (.value (.int false 1))) :=
      formatItems_array n .uint8
    rw [formatItems, itemsFrom_append hFront, hArray]
    rfl
  rw [structPack, hItems, Option.bind_some, packItems, packItems_replicate, packLength, Item.pack]

/-! ## Strings -/

theorem get_bind (f : Frame) (y : Var) (v : PyVal) : (f.bind y (.value v)).get ⟨y, []⟩ = some v := by
  simp [Frame.get, Frame.place, Frame.valueOf, Frame.bind_vars, PyVal.at?]

theorem format_literal (f : Frame) (pattern : Str) : f.format (.literal pattern) = pattern := rfl

theorem format_withLength (f : Frame) (front : Str) (letter : Char) :
    f.format (.withLength front letter) = front ++ (decimal f.length ++ [letter]) := rfl

theorem writes_text {f : Frame} {y : Var} {s : List CodePoint} (hGet : f.get ⟨y, []⟩ = some (.str s)) {depth counter : Nat}
    (hy : ¬ Kept depth counter y) (env : Env) :
    Writes (execAll env [.takeLength ⟨y, []⟩, .assign ⟨y, []⟩ (.encoded ⟨y, []⟩), .takeLength ⟨y, []⟩,
      .write (.withLength (str "I") 's') [.length, .value ⟨y, []⟩]] f) f depth counter (Ty.string.serial (.str s)) := by
  have hLength : (Stmt.takeLength ⟨y, []⟩).exec env f = some { f with length := s.length } := by
    simp [Stmt.exec, hGet, PyVal.len, PyVal.elements]
  have hGet' : Frame.get { f with length := s.length } ⟨y, []⟩ = some (.str s) := hGet
  have hEncode : (Stmt.assign ⟨y, []⟩ (.encoded ⟨y, []⟩)).exec env { f with length := s.length } =
      (encodeUtf8 s).map fun bs => Frame.bind { f with length := s.length } y (.value (.bytes bs)) := by
    rw [Stmt.exec, Expr.eval, hGet', Option.bind_some]
    show ((encodeUtf8 s).map PyVal.bytes).bind _ = _
    cases encodeUtf8 s <;> rfl
  rw [Ty.serial]
  cases hText : encodeUtf8 s with
  | none =>
    rw [hText] at hEncode
    rw [execAll, hLength, Option.bind_some, execAll, hEncode]
    exact Writes.raised f depth counter
  | some bs =>
    rw [hText] at hEncode
    let f₁ := Frame.bind { f with length := s.length } y (.value (.bytes bs))
    let f₂ : Frame := { f₁ with length := bs.length }
    have hGet₁ : f₁.get ⟨y, []⟩ = some (.bytes bs) := get_bind _ y (.bytes bs)
    have hGet₂ : f₂.get ⟨y, []⟩ = some (.bytes bs) := hGet₁
    have hLength₁ : (Stmt.takeLength ⟨y, []⟩).exec env f₁ = some f₂ := by
      simp [Stmt.exec, hGet₁, PyVal.len, PyVal.elements, f₂]
    have hFront : execAll env [.takeLength ⟨y, []⟩, .assign ⟨y, []⟩ (.encoded ⟨y, []⟩), .takeLength ⟨y, []⟩] f = some f₂ := by
      rw [execAll, hLength, Option.bind_some, execAll, hEncode, Option.map_some, Option.bind_some, execAll_singleton]
      exact hLength₁
    have hAgrees : Agrees depth counter f f₂ := agrees_bind hy { f with length := s.length } (.value (.bytes bs))
    have hArgs : evalArgs f₂ [.length, .value ⟨y, []⟩] = some [.int bs.length, .bytes bs] := by
      simp [evalArgs, Arg.eval, hGet₂, f₂]
    have hWrite := Writes.write (.withLength (str "I") 's') hArgs env depth counter
    rw [format_withLength, structPack_counted] at hWrite
    rw [Option.bind_some]
    rw [cut_length] at hWrite
    exact hWrite.after hFront rfl hAgrees

theorem writes_bytes {f : Frame} {y : Var} {bs : Bytes} (hGet : f.get ⟨y, []⟩ = some (.bytes bs)) (depth counter : Nat)
    (env : Env) :
    Writes (execAll env [.takeLength ⟨y, []⟩, .ifList ⟨y, []⟩ (.write (.withLength (str "I") 'B') [.length, .star ⟨y, []⟩])
      (.write (.withLength (str "I") 's') [.length, .value ⟨y, []⟩])] f) f depth counter
      ((packLength bs.length).map (· ++ bs)) := by
  let f₁ : Frame := { f with length := bs.length }
  have hGet₁ : f₁.get ⟨y, []⟩ = some (.bytes bs) := hGet
  have hFront : execAll env [.takeLength ⟨y, []⟩] f = some f₁ := by
    simp [execAll, Stmt.exec, hGet, PyVal.len, PyVal.elements, f₁]
  have hArgs : evalArgs f₁ [.length, .value ⟨y, []⟩] = some [.int bs.length, .bytes bs] := by
    simp [evalArgs, Arg.eval, hGet₁, f₁]
  have hWrite := Writes.write (.withLength (str "I") 's') hArgs env depth counter
  rw [format_withLength, structPack_counted] at hWrite
  rw [cut_length] at hWrite
  exact (hWrite.orelse _ hGet₁ rfl).after hFront rfl fun _ _ => rfl

theorem writes_fixedBytes {f : Frame} {y : Var} {bs : Bytes} (hGet : f.get ⟨y, []⟩ = some (.bytes bs)) (n : Nat)
    (depth counter : Nat) (env : Env) :
    Writes (execAll env [.ifList ⟨y, []⟩ (packStmt (decimal n ++ ['B']) [.star ⟨y, []⟩])
      (packStmt (decimal n ++ ['s']) [.value ⟨y, []⟩])] f) f depth counter (some (cut (reducedCount n) bs)) := by
  have hArgs : evalArgs f [.value ⟨y, []⟩] = some [.bytes bs] := by simp [evalArgs, Arg.eval, hGet]
  have hWrite := Writes.write (.literal (reducePattern (decimal n ++ ['s']))) hArgs env depth counter
  rw [format_literal, structPack_bytes] at hWrite
  exact hWrite.orelse _ hGet rfl

theorem writes_byteList {f : Frame} {y : Var} {vs : List PyVal} (hGet : f.get ⟨y, []⟩ = some (.list vs))
    (depth counter : Nat) (env : Env) :
    Writes (execAll env [.takeLength ⟨y, []⟩, .ifList ⟨y, []⟩ (.write (.withLength (str "I") 'B') [.length, .star ⟨y, []⟩])
      (.write (.withLength (str "I") 's') [.length, .value ⟨y, []⟩])] f) f depth counter
      ((packLength vs.length).bind fun front => (encodeEach (Code.int false 1).pack vs).map (front ++ ·)) := by
  let f₁ : Frame := { f with length := vs.length }
  have hGet₁ : f₁.get ⟨y, []⟩ = some (.list vs) := hGet
  have hFront : execAll env [.takeLength ⟨y, []⟩] f = some f₁ := by
    simp [execAll, Stmt.exec, hGet, PyVal.len, PyVal.elements, f₁]
  have hArgs : evalArgs f₁ [.length, .star ⟨y, []⟩] = some (.int vs.length :: vs) := by
    simp [evalArgs, Arg.eval, hGet₁, PyVal.elements, f₁]
  have hWrite := Writes.write (.withLength (str "I") 'B') hArgs env depth counter
  rw [format_withLength, structPack_countedList, if_pos rfl] at hWrite
  exact (hWrite.body _ hGet₁ rfl).after hFront rfl fun _ _ => rfl

theorem writes_fixedByteList {f : Frame} {y : Var} {vs : List PyVal} (hGet : f.get ⟨y, []⟩ = some (.list vs)) (n : Nat)
    (depth counter : Nat) (env : Env) :
    Writes (execAll env [.ifList ⟨y, []⟩ (packStmt (decimal n ++ ['B']) [.star ⟨y, []⟩])
      (packStmt (decimal n ++ ['s']) [.value ⟨y, []⟩])] f) f depth counter
      (if vs.length = reducedCount n then encodeEach (Code.int false 1).pack vs else none) := by
  have hArgs : evalArgs f [.star ⟨y, []⟩] = some vs := by simp [evalArgs, Arg.eval, hGet, PyVal.elements]
  have hWrite := Writes.write (.literal (reducePattern (decimal n ++ ['B']))) hArgs env depth counter
  have hPack : structPack (reducePattern (decimal n ++ ['B'])) vs = _ := structPack_reduced n .uint8 vs
  rw [format_literal, hPack] at hWrite
  exact hWrite.body _ hGet rfl

end XcRos.Genpy
