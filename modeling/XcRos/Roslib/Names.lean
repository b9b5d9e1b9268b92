import XcRos.Libros.NameResolution
import XcRos.Msg.PyStr

/-! # The graph names of roslib

`canonicalize_name`, `namespace`, `is_legal_name` and `resolve_name`, and that a name resolves as in
the C++ library.
-/

namespace XcRos.Roslib

open XcRos.Rpc XcRos.Msg XcRos.Foundation.Path
open XcRos.Libros.Names (ThisNode Canonical clean resolve)

/-- `'/'.join([x for x in name.split('/') if x])` -/
def joinParts (name : Str) : Str := ['/'].intercalate ((split '/' name).filter (· ≠ []))

def canonicalizeName (name : Str) : Str :=
  if name = [] ∨ name = ['/'] then name
  else if name.head? = some '/' then '/' :: joinParts name
  else joinParts name

/-- `name[:name.rfind(sep) + 1]` -/
def throughLast (sep : Char) (name : Str) : Str := name.rdropWhile (· ≠ sep)

/-- `namespace`, with a slash at its end. -/
def namespaceOf (name : Str) : Str :=
  if name = [] then ['/']
  else
    let name := if name.getLast? = some '/' then name.dropLast else name
    if throughLast '/' name = [] then ['/'] else throughLast '/' name

def isLegalName (unicodeWord : Char → Bool) : Str → Bool
  | [] => true
  | c :: rest =>
    (c == '~' || c == '/' || c.isAlpha) && rest.all (fun d => isWord unicodeWord d || d == '/') &&
      decide (¬ ['/', '/'] <:+: c :: rest)

/-- `resolve_name`. Empty remappings are as good as none. -/
def resolveName (name namespace_ : Str) (remappings : Option (List (Str × Str))) : Str :=
  if name = [] then namespaceOf namespace_
  else
    let name := canonicalizeName name
    let resolved :=
      if name.head? = some '/' then name
      else if name.head? = some '~' then canonicalizeName (namespace_ ++ ['/'] ++ name.tail)
      else namespaceOf namespace_ ++ name
    match remappings with
    | some mapped => (mapped.lookup resolved).getD resolved
    | none => resolved

/-! ## The same names in both languages -/

def text (s : Bytes) : Str := s.map Char.ofUInt8

theorem toNat_ofUInt8 (c : UInt8) : (Char.ofUInt8 c).toNat = c.toNat := rfl

theorem ofUInt8_inj (c d : UInt8) : Char.ofUInt8 c = Char.ofUInt8 d ↔ c = d := by
  constructor
  · intro h
    rw [← UInt8.toNat_inj, ← toNat_ofUInt8, h, toNat_ofUInt8]
  · rintro rfl
    rfl

theorem text_inj (s t : Bytes) : text s = text t ↔ s = t :=
  (List.map_injective_iff.mpr fun c d => (ofUInt8_inj c d).mp).eq_iff

theorem head?_text_iff (s : Bytes) (c : UInt8) :
    (text s).head? = some (Char.ofUInt8 c) ↔ s.head? = some c := by
  cases s with
  | nil => exact iff_of_false (Option.some_ne_none _).symm (Option.some_ne_none _).symm
  | cons d rest =>
    rw [text, List.map_cons, List.head?_cons, List.head?_cons, Option.some_inj, Option.some_inj]
    exact ofUInt8_inj d c

@[simp] theorem text_append (front back : Bytes) : text (front ++ back) = text front ++ text back :=
  List.map_append

theorem joinParts_text (s : Bytes) :
    joinParts (text s) = ['/'].intercalate ((components 47 s).map text) := by
  rw [joinParts, split_eq_splitOn]
  exact congrArg _ (components_map (f := Char.ofUInt8) (fun c => ofUInt8_inj c 47) s)

theorem absolute_text (parts : List Bytes) :
    absolute '/' (parts.map text) = text (absolute 47 parts) := by
  induction parts with
  | nil => rfl
  | cons part parts ih =>
    rw [List.map_cons, absolute_cons, ih, absolute_cons, ← text_append]
    rfl

theorem canonicalizeName_text {s : Bytes} (h : clean s ≠ []) :
    canonicalizeName (text s) = text (clean s) := by
  have hParts : (components 47 s).map text ≠ [] := by
    rwa [ne_eq, List.map_eq_nil_iff, Libros.Names.components_eq_nil_iff]
  have hJoin := cons_intercalate '/' hParts
  obtain ⟨hDoubled, hLast⟩ := Libros.Names.clean_tidy s
  have hClean := absolute_components hDoubled hLast h
  rw [absolute_text, ← joinParts_text] at hJoin
  rw [Libros.Names.components_clean, Libros.Names.head?_clean h] at hClean
  rw [hClean] at hJoin
  have hEmpty : ¬ (text s = [] ∨ text s = ['/']) := by
    rintro (hNil | hSlash)
    · exact h (by rw [List.map_eq_nil_iff.mp hNil]; rfl)
    · have hOne : s = [47] := (text_inj s [47]).mp hSlash
      exact h (by rw [hOne]; rfl)
  have hSlash : (text s).head? = some '/' ↔ s.head? = some 47 := head?_text_iff s 47
  rw [canonicalizeName, if_neg hEmpty]
  by_cases hHead : s.head? = some 47
  · rw [if_pos hHead] at hJoin
    rw [if_pos (hSlash.mpr hHead), hJoin]
  · rw [if_neg hHead] at hJoin
    rw [if_neg (mt hSlash.mp hHead)]
    exact (List.cons.inj hJoin).2

/-- The name of a node under its parent, which is the root for a name of one component. -/
def IsParent (ns name : Bytes) : Prop :=
  Canonical ns ∧
    ∃ base, base ≠ [] ∧ 47 ∉ base ∧ name = (if ns = [47] then [] else ns) ++ 47 :: base

theorem isAlpha_ofUInt8 (c : UInt8) : (Char.ofUInt8 c).isAlpha = Libros.isalpha c := by
  rw [Char.isAlpha, Char.isUpper, Char.isLower, Libros.isalpha]
  simp only [Char.ofUInt8, UInt8.le_iff_toNat_le, UInt32.le_iff_toNat_le, UInt8.toNat_toUInt32]
  simp

theorem isDigit_ofUInt8 (c : UInt8) : (Char.ofUInt8 c).isDigit = isdigit c := by
  rw [Char.isDigit, isdigit]
  simp [Char.ofUInt8, UInt8.le_iff_toNat_le, UInt32.le_iff_toNat_le]

theorem isValidCharInName_of_isWord {unicodeWord : Char → Bool} {c : UInt8} (hAscii : c < 128)
    (h : (isWord unicodeWord (Char.ofUInt8 c) || Char.ofUInt8 c == '/') = true) :
    Libros.Names.isValidCharInName c = true := by
  have hLow : ¬ 128 ≤ (Char.ofUInt8 c).toNat := by
    rw [toNat_ofUInt8]
    exact Nat.not_le.mpr (UInt8.lt_iff_toNat_lt.mp hAscii)
  have hSlash : (Char.ofUInt8 c = '/') ↔ c = 47 := ofUInt8_inj c 47
  have hUnderscore : (Char.ofUInt8 c = '_') ↔ c = 95 := ofUInt8_inj c 95
  rw [isWord, Char.isAlphanum, isAlpha_ofUInt8, isDigit_ofUInt8] at h
  simp only [hLow, decide_false, Bool.false_and, Bool.or_false, Bool.or_eq_true, beq_iff_eq, hSlash,
    hUnderscore] at h
  simp only [Libros.Names.isValidCharInName, Libros.isalnum, Bool.or_eq_true, beq_iff_eq]
  tauto

theorem isLegalName_cons {unicodeWord : Char → Bool} {c : UInt8} {rest : Bytes}
    (h : isLegalName unicodeWord (text (c :: rest)) = true) :
    (Libros.isalpha c || c == 47 || c == 126) = true ∧
      (∀ d ∈ rest, (isWord unicodeWord (Char.ofUInt8 d) || Char.ofUInt8 d == '/') = true) ∧
      ¬ ['/', '/'] <:+: text (c :: rest) := by
  have hSlash : (Char.ofUInt8 c = '/') ↔ c = 47 := ofUInt8_inj c 47
  have hTilde : (Char.ofUInt8 c = '~') ↔ c = 126 := ofUInt8_inj c 126
  rw [text, List.map_cons, isLegalName, isAlpha_ofUInt8] at h
  simp only [Bool.and_eq_true, Bool.or_eq_true, beq_iff_eq, hSlash, hTilde, List.all_map, List.all_eq_true,
    decide_eq_true_iff] at h ⊢
  obtain ⟨⟨hFirst, hRest⟩, hDoubled⟩ := h
  refine ⟨?_, fun d hd => ?_, hDoubled⟩
  · tauto
  · simpa using hRest d hd

theorem validate_of_isLegalName {unicodeWord : Char → Bool} {name : Bytes} (hAscii : ∀ c ∈ name, c < 128)
    (hLegal : isLegalName unicodeWord (text name) = true) : Libros.Names.validate name = none := by
  cases name with
  | nil => rfl
  | cons c rest =>
    obtain ⟨hFirst, hRest, -⟩ := isLegalName_cons hLegal
    refine Libros.Names.validate_cons_eq_none_iff.mpr ⟨hFirst, fun d hd => ?_⟩
    exact isValidCharInName_of_isWord (hAscii d (List.mem_cons_of_mem c hd)) (hRest d hd)

theorem clean_ne_nil_of_isLegalName {unicodeWord : Char → Bool} {name : Bytes} (hName : name ≠ [])
    (hRoot : name ≠ [47]) (hLegal : isLegalName unicodeWord (text name) = true) : clean name ≠ [] := by
  obtain ⟨c, rest, rfl⟩ := List.exists_cons_of_ne_nil hName
  by_cases hc : c = 47
  · subst hc
    obtain ⟨-, -, hDoubled⟩ := isLegalName_cons hLegal
    have hRest : rest ≠ [] := fun h => hRoot (by rw [h])
    obtain ⟨d, rest, rfl⟩ := List.exists_cons_of_ne_nil hRest
    have hd : d ≠ 47 := by
      rintro rfl
      exact hDoubled ⟨[], text rest, rfl⟩
    rw [ne_eq, ← Libros.Names.components_eq_nil_iff, components_cons_self,
      Libros.Names.components_eq_nil_iff, Libros.Names.clean_cons hd]
    exact List.cons_ne_nil _ _
  · rw [Libros.Names.clean_cons hc]
    exact List.cons_ne_nil _ _

theorem throughLast_append {sep : Char} {back : Str} (h : sep ∉ back) (front : Str) :
    throughLast sep (front ++ sep :: back) = front ++ [sep] := by
  have hBack : ∀ c ∈ back.reverse, (c ≠ sep : Bool) = true := by
    intro c hc
    have hMem := List.mem_reverse.mp hc
    exact decide_eq_true fun hSep => h (hSep ▸ hMem)
  rw [throughLast, List.rdropWhile, List.reverse_append, List.reverse_cons, List.append_assoc,
    List.dropWhile_append_of_pos hBack, List.singleton_append, List.dropWhile_cons_of_neg (by simp),
    List.reverse_cons, List.reverse_reverse]

theorem not_mem_text {c : UInt8} {s : Bytes} (h : c ∉ s) : Char.ofUInt8 c ∉ text s := by
  intro hMem
  obtain ⟨d, hd, hEq⟩ := List.mem_map.mp hMem
  exact h ((ofUInt8_inj d c).mp hEq ▸ hd)

theorem IsParent.ne_root {ns name : Bytes} (h : IsParent ns name) : name ≠ [47] := by
  obtain ⟨-, base, hBase, -, rfl⟩ := h
  obtain ⟨c, rest, rfl⟩ := List.exists_cons_of_ne_nil hBase
  intro hRoot
  have hLength := congrArg List.length hRoot
  rw [List.length_append, List.length_cons, List.length_cons, List.length_singleton] at hLength
  omega

theorem namespaceOf_text {ns name : Bytes} (h : IsParent ns name) :
    namespaceOf (text name) = text (absolute 47 (components 47 ns) ++ [47]) := by
  obtain ⟨hNs, base, hBase, hSlash, rfl⟩ := h
  have hFront : (if ns = [47] then [] else ns) = absolute 47 (components 47 ns) := by
    split
    · rename_i hRoot
      rw [hRoot]
      rfl
    · rename_i hRoot
      exact (hNs.absolute_components hRoot).symm
  have hLast : (text (absolute 47 (components 47 ns) ++ 47 :: base)).getLast? ≠ some '/' := by
    intro hLast
    have hBack : text base ≠ [] := fun h => hBase (List.map_eq_nil_iff.mp h)
    rw [List.append_cons, text_append, List.getLast?_append_of_ne_nil _ hBack] at hLast
    exact not_mem_text hSlash (List.mem_of_getLast? hLast)
  have hThrough : throughLast '/' (text (absolute 47 (components 47 ns) ++ 47 :: base)) =
      text (absolute 47 (components 47 ns) ++ [47]) := by
    rw [text_append, text_append]
    exact throughLast_append (not_mem_text hSlash) _
  have hNonempty : ∀ front back : Bytes, text (front ++ 47 :: back) ≠ [] := by
    simp [text]
  rw [hFront, namespaceOf, if_neg (hNonempty _ _), if_neg hLast]
  dsimp only
  rw [hThrough, if_neg (hNonempty _ _)]

theorem resolveName_text {unicodeWord : Char → Bool} {self : ThisNode} {ns name : Bytes}
    (hSelf : Canonical self.name) (hParent : IsParent ns self.name)
    (hName : name ≠ []) (hRoot : name ≠ [47]) (hAscii : ∀ c ∈ name, c < 128)
    (hLegal : isLegalName unicodeWord (text name) = true) :
    ∃ resolved, resolve self ns name false = .ok resolved ∧
      resolveName (text name) (text self.name) none = text resolved := by
  have hClean := clean_ne_nil_of_isLegalName hName hRoot hLegal
  have hText : text name ≠ [] := fun h => hName (List.map_eq_nil_iff.mp h)
  have hCanonical := canonicalizeName_text hClean
  have hHead (c : UInt8) (d : Char) (hd : Char.ofUInt8 c = d) :
      (text (clean name)).head? = some d ↔ name.head? = some c := by
    rw [← hd, head?_text_iff, Libros.Names.head?_clean hClean]
  have hSlash := hHead 47 '/' rfl
  have hTilde := hHead 126 '~' rfl
  refine ⟨_, Libros.Names.resolve_eq hSelf.1 ns hName (validate_of_isLegalName hAscii hLegal), ?_⟩
  rw [resolveName, if_neg hText, hCanonical]
  dsimp only
  by_cases hGlobal : name.head? = some 47
  · rw [if_pos (hSlash.mpr hGlobal), Libros.Names.resolvedParts, hGlobal, if_neg (by decide), if_pos rfl,
      Libros.Names.clean_rooted hGlobal]
  · rw [if_neg (mt hSlash.mp hGlobal)]
    by_cases hPrivate : name.head? = some 126
    · obtain ⟨rest, rfl⟩ := List.head?_eq_some_iff.mp hPrivate
      have hParts : components 47 self.name ++ components 47 rest ≠ [] := by
        intro h
        exact hParent.ne_root (hSelf.components_eq_nil_iff.mp (List.append_eq_nil_iff.mp h).1)
      have hRooted : (self.name ++ 47 :: clean rest).head? = some 47 := by
        obtain ⟨tail, hTail⟩ := List.head?_eq_some_iff.mp hSelf.1
        rw [hTail]
        rfl
      have hInner : clean (self.name ++ 47 :: clean rest) =
          absolute 47 (components 47 self.name ++ components 47 rest) := by
        rw [Libros.Names.clean_rooted hRooted, components_append_cons, Libros.Names.components_clean]
      have hJoined : text self.name ++ ['/'] ++ (text (126 :: clean rest)).tail =
          text (self.name ++ 47 :: clean rest) := by
        rw [text_append, List.append_assoc]
        rfl
      rw [if_pos (hTilde.mpr hPrivate), Libros.Names.resolvedParts, if_pos hPrivate,
        Libros.Names.clean_cons (by decide), hJoined,
        canonicalizeName_text (by rwa [hInner, ne_eq, absolute_eq_nil_iff]), hInner, List.tail_cons]
      dsimp only
      rw [if_neg hParts]
    · have hName := absolute_components (Libros.Names.clean_tidy name).1 (Libros.Names.clean_tidy name).2 hClean
      rw [Libros.Names.components_clean, Libros.Names.head?_clean hClean, if_neg hGlobal] at hName
      rw [if_neg (mt hTilde.mp hPrivate), Libros.Names.resolvedParts, if_neg hPrivate, if_neg hGlobal,
        namespaceOf_text hParent, absolute_append, hName, ← text_append, List.append_assoc,
        List.singleton_append]

theorem resolveName_listener :
    ∃ resolved, resolve ⟨bytes "/robot/listener", bytes "/robot", []⟩ (bytes "/robot") (bytes "~/chatter/") false =
        .ok resolved ∧
      resolveName (text (bytes "~/chatter/")) (text (bytes "/robot/listener")) none = text resolved :=
  @resolveName_text (fun _ => false) ⟨bytes "/robot/listener", bytes "/robot", []⟩ _ _
    (by decide) ⟨by decide, bytes "listener", by decide, by decide, by decide⟩ (by decide) (by decide)
    (List.forall_iff_forall_mem.mp (by decide)) (by decide +kernel)

end XcRos.Roslib
