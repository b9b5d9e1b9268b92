import XcRos.Genpy.CheckType
import XcRos.Genpy.Fresh

/-! # Texts as blocks

Messages without strings and floats are printed as indented blocks. The type of a field says what its value is printed
as, although the layout goes by the value.
-/

namespace XcRos.Genpy

open XcRos.Foundation XcRos.Msg

/-! ## Types and their blocks -/

section

variable (unicodeWord : Char → Bool)

mutual

/-- A type without strings and floats. A time and a duration have their two fields. -/
def Ty.Plain : Ty → Prop
  | .simple s => s ≠ .float32 ∧ s ≠ .float64
  | .string => False
  | .array _ t => t.Plain
  | .message cls members =>
    (isStamp cls = true → members = stampMembers .uint32 ∨ members = stampMembers .int32) ∧ members.Plain

def Members.Plain : Members → Prop
  | .nil => True
  | .cons name t rest => isLegalResourceBaseName unicodeWord name = true ∧ t.Plain ∧ rest.Plain

end

end

def lineText : PyVal → Str
  | .bool b => boolText b
  | .int n => intText n
  | .bytes bs => bytesText bs
  | _ => []

def stampEntries : List (Str × PyVal) → List (Str × Block)
  | [(_, .int secs), (_, .int nsecs)] =>
    [(str "secs", .scalar (intText secs)), (str "nsecs", .scalar (nineWide.fill nsecs))]
  | _ => []

mutual

def Ty.block : Ty → PyVal → Block
  | .array _ t, .list vs =>
    if vs.isEmpty || t.isSimple then .scalar (listText (vs.map lineText)) else .sequence (vs.map t.block)
  | .message cls members, .obj _ attrs => .mapping (if isStamp cls then stampEntries attrs else members.entries attrs)
  | _, v => .scalar (lineText v)

def Members.entries : Members → List (Str × PyVal) → List (Str × Block)
  | .cons name t rest, (_, v) :: attrs => (remapReserved name, t.block v) :: rest.entries attrs
  | _, _ => []

end

/-! ## Values of a simple type -/

theorem Simple.plain_cases {s : Simple} {v : PyVal} (hFloat : s ≠ .float32 ∧ s ≠ .float64) (h : s.Canonical v) :
    (s = .bool ∧ ∃ b, v = .bool b) ∨ (s ≠ .bool ∧ ∃ n, v = .int n) := by
  cases s with
  | float32 => exact absurd rfl hFloat.1
  | float64 => exact absurd rfl hFloat.2
  | bool => exact .inl ⟨rfl, h⟩
  | int8 | uint8 | int16 | uint16 | int32 | uint32 | int64 | uint64 | char | byte =>
    obtain ⟨n, rfl, _⟩ := h
    exact .inr ⟨by decide, n, rfl⟩

theorem Simple.number_of_plain {s : Simple} {v : PyVal} (hFloat : s ≠ .float32 ∧ s ≠ .float64) (h : s.Canonical v) :
    isNumber v = true ∧ isstring v = false := by
  obtain ⟨-, b, rfl⟩ | ⟨-, n, rfl⟩ := Simple.plain_cases hFloat h <;> exact ⟨rfl, rfl⟩

theorem Simple.plain_list {s : Simple} {vs : List PyVal} (hFloat : s ≠ .float32 ∧ s ≠ .float64)
    (h : ∀ v ∈ vs, s.Canonical v) : (∃ bs : List Bool, vs = bs.map .bool) ∨ ∃ ns : List Int, vs = ns.map .int := by
  by_cases hBool : s = .bool
  · refine .inl ?_
    induction vs with
    | nil => exact ⟨[], rfl⟩
    | cons v vs ih =>
      obtain ⟨hHead, hTail⟩ := List.forall_mem_cons.mp h
      obtain ⟨bs, rfl⟩ := ih hTail
      obtain ⟨-, b, rfl⟩ | ⟨hNot, -⟩ := Simple.plain_cases hFloat hHead
      · exact ⟨b :: bs, rfl⟩
      · exact absurd hBool hNot
  · refine .inr ?_
    induction vs with
    | nil => exact ⟨[], rfl⟩
    | cons v vs ih =>
      obtain ⟨hHead, hTail⟩ := List.forall_mem_cons.mp h
      obtain ⟨ns, rfl⟩ := ih hTail
      obtain ⟨hIs, -⟩ | ⟨-, n, rfl⟩ := Simple.plain_cases hFloat hHead
      · exact absurd hIs hBool
      · exact ⟨n :: ns, rfl⟩

theorem canonical_stamp {members : Members} {attrs : List (Str × PyVal)}
    (hMembers : members = stampMembers .uint32 ∨ members = stampMembers .int32) (h : members.Canonical attrs) :
    ∃ secs nsecs, attrs = [(str "secs", .int secs), (str "nsecs", .int nsecs)] := by
  obtain rfl | rfl := hMembers
  · obtain ⟨_, _, rfl, ⟨secs, rfl, _⟩, _, _, rfl, ⟨nsecs, rfl, _⟩, rfl⟩ := h
    exact ⟨secs, nsecs, rfl⟩
  · obtain ⟨_, _, rfl, ⟨secs, rfl, _⟩, _, _, rfl, ⟨nsecs, rfl, _⟩, rfl⟩ := h
    exact ⟨secs, nsecs, rfl⟩

theorem Ty.plain_element {unicodeWord : Char → Bool} {t : Ty} (hArray : t.isArray = false) (hPlain : t.Plain unicodeWord) :
    (∃ s, t = .simple s ∧ s ≠ .float32 ∧ s ≠ .float64) ∨ ∃ cls members, t = .message cls members := by
  cases t with
  | simple s => exact .inl ⟨s, rfl, hPlain⟩
  | string => exact hPlain.elim
  | array length t => cases hArray
  | message cls members => exact .inr ⟨cls, members, rfl⟩

theorem Ty.not_string {unicodeWord : Char → Bool} {t : Ty} (hPlain : t.Plain unicodeWord) {v : PyVal} (h : t.Canonical v) : isstring v = false := by
  cases t with
  | simple s => exact (Simple.number_of_plain hPlain h).2
  | string => exact hPlain.elim
  | array length t =>
    rw [Ty.Canonical] at h
    split at h
    · obtain ⟨bs, rfl, _⟩ := h
      rfl
    · obtain ⟨vs, rfl, _⟩ := h
      rfl
  | message cls members =>
    obtain ⟨attrs, rfl, _⟩ := h
    rfl

/-! ## What is printed -/

section

variable {ctx : MsgContext} {fuel : Nat} {unicodeWord : Char → Bool} (py : Printer)

theorem pyText_line {s : Simple} {v : PyVal} (hFloat : s ≠ .float32 ∧ s ≠ .float64) (h : s.Canonical v) :
    pyText py v = lineText v := by
  obtain ⟨-, b, rfl⟩ | ⟨-, n, rfl⟩ := Simple.plain_cases hFloat h <;> rfl

theorem strify_line {s : Simple} {v : PyVal} (hFloat : s ≠ .float32 ∧ s ≠ .float64) (h : s.Canonical v) (indent : Str) :
    strify ctx py indent v = some (lineText v) := by
  obtain ⟨-, b, rfl⟩ | ⟨-, n, rfl⟩ := Simple.plain_cases hFloat h <;> rw [strify] <;> first | rfl | simp

theorem convertGetattr_none {v : PyVal} (h : isstring v = false) (t : Str) : convertGetattr v t = none := by
  cases v <;> first | rfl | cases h

theorem stampText_block (n : Nat) (secs nsecs : Int) :
    stampText py (Block.blanks n) [(str "secs", .int secs), (str "nsecs", .int nsecs)] =
      some ((Block.mapping (stampEntries [(str "secs", .int secs), (str "nsecs", .int nsecs)])).text n) := by
  simp [stampText, stampEntries, Block.text, Block.entryTexts, Block.joinLines, nineWide, pyText, List.lookup, str]

theorem strifyItems_block {t : Ty} {n : Nat} {vs : List PyVal}
    (h : ∀ v ∈ vs, strify ctx py (Block.blanks (n + 2)) v = some ((t.block v).text (n + 2))) :
    strifyItems ctx py (Block.blanks n) vs = some (Block.itemTexts n (vs.map t.block)) := by
  induction vs with
  | nil => rfl
  | cons v vs ih =>
    obtain ⟨hHead, hTail⟩ := List.forall_mem_cons.mp h
    have hIndent : Block.blanks n ++ [' ', ' '] = Block.blanks (n + 2) := List.replicate_append_replicate (m := 2)
    rw [strifyItems, hIndent, hHead, Option.bind_some, ih hTail]
    rfl

theorem strify_list {t : Ty} {unicodeWord : Char → Bool} (hArray : t.isArray = false) (hPlain : t.Plain unicodeWord)
    {length : Option Nat} {n : Nat} {vs : List PyVal} (hCanonical : ∀ v ∈ vs, t.Canonical v)
    (h : ∀ v ∈ vs, strify ctx py (Block.blanks (n + 2)) v = some ((t.block v).text (n + 2))) :
    strify ctx py (Block.blanks n) (.list vs) = some (((Ty.array length t).block (.list vs)).text n) := by
  rw [strify, strifyItems_block py h, Ty.block]
  cases vs with
  | nil => rfl
  | cons v vs =>
    obtain ⟨s, rfl, hFloat⟩ | ⟨cls, members, rfl⟩ := Ty.plain_element hArray hPlain
    · obtain ⟨hNumber, hString⟩ := Simple.number_of_plain hFloat (hCanonical v List.mem_cons_self)
      have hTexts : (v :: vs).map (pyText py) = (v :: vs).map lineText :=
        List.map_congr_left fun w hw => pyText_line py hFloat (hCanonical w hw)
      rw [strifyList, hString, hNumber, hTexts]
      rfl
    · obtain ⟨attrs, rfl, _⟩ := hCanonical v List.mem_cons_self
      rfl

mutual

theorem Ty.strify_block : (t : Ty) → t.WellFormed → t.Plain unicodeWord → t.Generated ctx fuel → (v : PyVal) →
    t.Canonical v → ∀ n : Nat, strify ctx py (Block.blanks (n + 1)) v = some ((t.block v).text (n + 1))
  | .simple s, _, hPlain, _, v, hCanonical, n => by
    rw [strify_line py hPlain hCanonical]
    rfl
  | .string, _, hPlain, _, _, _, _ => hPlain.elim
  | .array length t, hFormed, hPlain, hGenerated, v, hCanonical, n => by
    rw [Ty.Canonical] at hCanonical
    split at hCanonical
    · obtain ⟨bs, rfl, _⟩ := hCanonical
      rw [strify]
      · rfl
      all_goals simp
    · obtain ⟨vs, rfl, _, hEach⟩ := hCanonical
      exact strify_list py hFormed.1 hPlain hEach fun w hw =>
        t.strify_block hFormed.2 hPlain hGenerated w (hEach w hw) (n + 2)
  | .message cls members, hFormed, hPlain, hGenerated, v, hCanonical, n => by
    obtain ⟨attrs, rfl, hAttrs, _⟩ := hCanonical
    obtain ⟨_, spec, hSpec, hMembers⟩ := hGenerated
    rw [strify, Ty.block]
    split
    · rename_i hStamp
      obtain ⟨secs, nsecs, rfl⟩ := canonical_stamp (hPlain.1 hStamp) hAttrs
      exact stampText_block py (n + 1) secs nsecs
    · rename_i hStamp
      rw [slotTypes, if_neg hStamp, hSpec, Option.map_some, Option.bind_some,
        members.strifyFields_entries hFormed.2 hPlain.2 spec.types hMembers attrs hAttrs (n + 1)]
      rfl

theorem Members.strifyFields_entries : (members : Members) → members.WellFormed → members.Plain unicodeWord →
    (types : List Str) → members.Generated ctx fuel types → (attrs : List (Str × PyVal)) → members.Canonical attrs →
    ∀ n : Nat, strifyFields ctx py (Block.blanks n) types attrs = some (Block.entryTexts n (members.entries attrs))
  | .nil, _, _, types, hGenerated, attrs, hCanonical, n => by
    obtain rfl := hGenerated
    obtain rfl := hCanonical
    rfl
  | .cons name t rest, hFormed, hPlain, types, hGenerated, attrs, hCanonical, n => by
    obtain ⟨type, more, rfl, _, hHead, hRest⟩ := hGenerated
    obtain ⟨v, attrs, rfl, hv, hAttrs⟩ := hCanonical
    have hField := t.strify_block hFormed.1 hPlain.2.1 hHead v hv (n + 1)
    have hIndent : ' ' :: ' ' :: Block.blanks n = Block.blanks (n + 2) := rfl
    rw [strifyFields, convertGetattr_none (Ty.not_string hPlain.2.1 hv), hIndent]
    dsimp only
    rw [hField, Option.bind_some,
      rest.strifyFields_entries hFormed.2 hPlain.2.2 more hRest attrs hAttrs n]
    rfl

end

theorem strifyMessage_document {cls : Str} {spec : MsgSpec} {members : Members} (hStamp : isStamp cls = false)
    (hSpec : ctx.getRegistered cls = some spec) (hFormed : members.WellFormed) (hPlain : members.Plain unicodeWord)
    (hGenerated : members.Generated ctx fuel spec.types) {attrs : List (Str × PyVal)} (hCanonical : members.Canonical attrs) :
    strify ctx py [] (.obj cls attrs) = some (Block.document (members.entries attrs)) := by
  have hFields := members.strifyFields_entries py hFormed hPlain spec.types hGenerated attrs hCanonical 0
  have hIndent : Block.blanks 0 = [] := rfl
  rw [hIndent] at hFields
  rw [strify, hStamp, slotTypes, hStamp, hSpec]
  exact congrArg (Option.map fun vals => Block.joinLines vals) hFields

end

/-! ## Keys and scalars -/

inductive ScalarText : Str → Prop
  | int (width : Nat) (n : Int) : ScalarText (Block.blanks width ++ intText n)
  | bool (b : Bool) : ScalarText (boolText b)
  | ints (ns : List Int) : ScalarText (listText (ns.map intText))
  | bools (bs : List Bool) : ScalarText (listText (bs.map boolText))
  | bytes (bs : Bytes) : ScalarText (bytesText bs)

section

variable {unicodeWord : Char → Bool}

theorem isLegal_remapReserved {name : Str} (h : isLegalResourceBaseName unicodeWord name = true) :
    isLegalResourceBaseName unicodeWord (remapReserved name) = true := by
  rw [remapReserved]
  split
  · cases name with
    | nil => cases h
    | cons c rest =>
      rw [isLegalResourceBaseName, Bool.and_eq_true] at h
      rw [List.cons_append, isLegalResourceBaseName, List.all_append, h.1, h.2]
      rfl
  · exact h

theorem scalarText_line {s : Simple} {v : PyVal} (hFloat : s ≠ .float32 ∧ s ≠ .float64) (h : s.Canonical v) :
    ScalarText (lineText v) := by
  obtain ⟨-, b, rfl⟩ | ⟨-, n, rfl⟩ := Simple.plain_cases hFloat h
  · exact .bool b
  · exact .int 0 n

theorem scalarText_list {s : Simple} {vs : List PyVal} (hFloat : s ≠ .float32 ∧ s ≠ .float64)
    (h : ∀ v ∈ vs, s.Canonical v) : ScalarText (listText (vs.map lineText)) := by
  obtain ⟨bs, rfl⟩ | ⟨ns, rfl⟩ := Simple.plain_list hFloat h
  · rw [List.map_map]
    exact .bools bs
  · rw [List.map_map]
    exact .ints ns

theorem legalItems_map {key scalar : Str → Prop} {α : Type} {f : α → Block} {as : List α}
    (h : ∀ a ∈ as, (f a).Legal key scalar) : Block.LegalItems key scalar (as.map f) := by
  induction as with
  | nil => trivial
  | cons a as ih =>
    obtain ⟨hHead, hTail⟩ := List.forall_mem_cons.mp h
    exact ⟨hHead, ih hTail⟩

mutual

theorem Ty.legal_block : (t : Ty) → t.WellFormed → t.Plain unicodeWord → (v : PyVal) → t.Canonical v →
    (t.block v).Legal (fun name => isLegalResourceBaseName unicodeWord name = true) ScalarText
  | .simple s, _, hPlain, v, hCanonical => scalarText_line hPlain hCanonical
  | .string, _, hPlain, _, _ => hPlain.elim
  | .array length t, hFormed, hPlain, v, hCanonical => by
    rw [Ty.Canonical] at hCanonical
    split at hCanonical
    · obtain ⟨bs, rfl, _⟩ := hCanonical
      exact .bytes bs
    · obtain ⟨vs, rfl, _, hEach⟩ := hCanonical
      rw [Ty.block]
      cases vs with
      | nil => exact .ints []
      | cons v vs =>
        obtain ⟨s, rfl, hFloat⟩ | ⟨cls, members, rfl⟩ := Ty.plain_element hFormed.1 hPlain
        · exact scalarText_list hFloat hEach
        · exact ⟨List.cons_ne_nil _ _, legalItems_map fun w hw =>
            (Ty.message cls members).legal_block hFormed.2 hPlain w (hEach w hw)⟩
  | .message cls members, hFormed, hPlain, v, hCanonical => by
    obtain ⟨attrs, rfl, hAttrs, _⟩ := hCanonical
    rw [Ty.block]
    split
    · rename_i hStamp
      obtain ⟨secs, nsecs, rfl⟩ := canonical_stamp (hPlain.1 hStamp) hAttrs
      exact ⟨rfl, .int 0 secs, rfl, .int _ nsecs, trivial⟩
    · exact members.legal_entries hFormed.2 hPlain.2 attrs hAttrs

theorem Members.legal_entries : (members : Members) → members.WellFormed → members.Plain unicodeWord →
    (attrs : List (Str × PyVal)) → members.Canonical attrs →
    Block.LegalEntries (fun name => isLegalResourceBaseName unicodeWord name = true) ScalarText (members.entries attrs)
  | .nil, _, _, attrs, hCanonical => by
    obtain rfl := hCanonical
    trivial
  | .cons name t rest, hFormed, hPlain, attrs, hCanonical => by
    obtain ⟨v, attrs, rfl, hv, hAttrs⟩ := hCanonical
    exact ⟨isLegal_remapReserved hPlain.1, t.legal_block hFormed.1 hPlain.2.1 v hv,
      rest.legal_entries hFormed.2 hPlain.2.2 attrs hAttrs⟩

end

end

end XcRos.Genpy
