import XcRos.Foundation.Path
import XcRos.Libros.Names

/-! # Name resolution

`names::append`, `names::resolve` and `names::remap`. A resolved name is what `absolute` makes of the
components of the namespace, of the node name and of the name that is resolved.
-/

namespace XcRos.Libros.Names

open XcRos.Rpc XcRos.Foundation.Path

def append (left right : Bytes) : Bytes := clean (left ++ [47] ++ right)

/-- What `this_node` and the remappings hold. -/
structure ThisNode where
  name : Bytes
  ns : Bytes
  remappings : List (Bytes × Bytes)

/-- `resolve` before it remaps; the error is the text of the `InvalidNameException`. -/
def resolveUnmapped (self : ThisNode) (ns name : Bytes) : Except Bytes Bytes :=
  match validate name with
  | some error => .error error
  | none =>
    if name = [] then
      if ns = [] then .ok [47]
      else if ns.head? = some 47 then .ok ns
      else .ok (append [47] ns)
    else
      let copy := if name.head? = some 126 then append self.name name.tail else name
      let copy := if copy.head? ≠ some 47 then append [47] (append ns copy) else copy
      .ok (clean copy)

def remap (self : ThisNode) (name : Bytes) : Except Bytes Bytes := do
  let resolved ← resolveUnmapped self self.ns name
  return (self.remappings.lookup resolved).getD name

/-- `resolve`. The early returns for the empty name are not remapped. -/
def resolve (self : ThisNode) (ns name : Bytes) (doRemap : Bool) : Except Bytes Bytes := do
  let copy ← resolveUnmapped self ns name
  if name ≠ [] ∧ doRemap then remap self copy else return copy

example : resolve ⟨bytes "/robot/arm", bytes "/robot", []⟩ (bytes "/robot") (bytes "~//gain/") false =
    .ok (bytes "/robot/arm/gain") := by decide

def Canonical (name : Bytes) : Prop :=
  name.head? = some 47 ∧ ¬ [47, 47] <:+: name ∧ (name.getLast? = some 47 → name = [47])

/-! ## What `clean` leaves -/

theorem not_infix_eraseDoubled (s : Bytes) : ¬ [47, 47] <:+: eraseDoubled s := by
  induction s with
  | nil => exact fun h => absurd (List.infix_nil.mp h) (by decide)
  | cons c rest ih =>
    rw [eraseDoubled]
    split
    · exact ih
    · rename_i hSingle
      rw [List.infix_cons_iff]
      rintro (hPrefix | hInfix)
      · obtain ⟨back, hBack⟩ := hPrefix
        obtain ⟨rfl, hRest⟩ := List.cons.inj hBack
        rw [← head?_eraseDoubled, ← hRest] at hSingle
        exact hSingle ⟨rfl, rfl⟩
      · exact ih hInfix

theorem eraseDoubled_of_not_infix {s : Bytes} (h : ¬ [47, 47] <:+: s) : eraseDoubled s = s := by
  induction s with
  | nil => rfl
  | cons c rest ih =>
    rw [eraseDoubled, ih fun hInfix => h (List.infix_cons hInfix), if_neg]
    rintro ⟨rfl, hHead⟩
    obtain ⟨back, rfl⟩ := List.head?_eq_some_iff.mp hHead
    exact h ⟨[], back, rfl⟩

theorem clean_of_tidy {s : Bytes} (hDoubled : ¬ [47, 47] <:+: s) (hLast : s.getLast? ≠ some 47) :
    clean s = s := by
  simp only [clean, eraseDoubled_of_not_infix hDoubled, if_neg hLast]

theorem clean_tidy (s : Bytes) : ¬ [47, 47] <:+: clean s ∧ (clean s).getLast? ≠ some 47 := by
  have hDoubled := not_infix_eraseDoubled s
  simp only [clean]
  split
  · rename_i hLast
    obtain ⟨front, hFront⟩ := List.getLast?_eq_some_iff.mp hLast
    rw [hFront] at hDoubled ⊢
    rw [List.dropLast_concat]
    refine ⟨fun h => hDoubled (h.trans (List.prefix_append _ _).isInfix), fun hAgain => ?_⟩
    obtain ⟨front', rfl⟩ := List.getLast?_eq_some_iff.mp hAgain
    exact hDoubled ⟨front', [], by simp⟩
  · rename_i hLast
    exact ⟨hDoubled, hLast⟩

theorem clean_clean (s : Bytes) : clean (clean s) = clean s :=
  clean_of_tidy (clean_tidy s).1 (clean_tidy s).2

theorem canonical_iff_resolved {name : Bytes} : Canonical name ↔ name.head? = some 47 ∧ Resolved name := by
  refine and_congr_right fun _ => ⟨fun ⟨hDoubled, hLast⟩ => ?_, ?_⟩
  · by_cases hRoot : name = [47]
    · exact .inr hRoot
    · exact .inl (clean_of_tidy hDoubled fun h => hRoot (hLast h))
  · rintro (hClean | rfl)
    · have hTidy := clean_tidy name
      rw [hClean] at hTidy
      exact ⟨hTidy.1, fun h => absurd h hTidy.2⟩
    · exact ⟨fun h => absurd h.length_le (by decide), fun _ => rfl⟩

instance (name : Bytes) : Decidable (Canonical name) := decidable_of_iff' _ canonical_iff_resolved

theorem components_eraseDoubled (s : Bytes) : components 47 (eraseDoubled s) = components 47 s := by
  induction s with
  | nil => rfl
  | cons c rest ih =>
    rw [eraseDoubled]
    split
    · rename_i h
      rw [ih, h.1, components_cons_self]
    · exact components_cons_congr c (head?_eraseDoubled rest) ih

theorem components_clean (s : Bytes) : components 47 (clean s) = components 47 s := by
  simp only [clean]
  split
  · rename_i hLast
    obtain ⟨front, hFront⟩ := List.getLast?_eq_some_iff.mp hLast
    rw [← components_eraseDoubled s, hFront, List.dropLast_concat, components_concat_self]
  · exact components_eraseDoubled s

theorem head?_clean {s : Bytes} (h : clean s ≠ []) : (clean s).head? = s.head? := by
  rw [← head?_eraseDoubled s]
  simp only [clean] at h ⊢
  split
  · rename_i hLast
    rw [if_pos hLast] at h
    cases hErased : eraseDoubled s with
    | nil => rfl
    | cons c rest =>
      cases rest with
      | nil => exact absurd (by rw [hErased]; rfl) h
      | cons d rest => rfl
  · rfl

theorem clean_cons {c : UInt8} (hc : c ≠ 47) (s : Bytes) : clean (c :: s) = c :: clean s := by
  have hErased : eraseDoubled (c :: s) = c :: eraseDoubled s := by
    rw [eraseDoubled, if_neg fun h => hc h.1]
  simp only [clean, hErased]
  cases hs : eraseDoubled s with
  | nil => simp [hc]
  | cons d rest =>
    rw [List.getLast?_cons_cons]
    split <;> rfl

theorem clean_rooted {s : Bytes} (h : s.head? = some 47) : clean s = absolute 47 (components 47 s) := by
  by_cases hClean : clean s = []
  · rw [← components_clean, hClean]
    rfl
  · obtain ⟨hDoubled, hLast⟩ := clean_tidy s
    have hParts := absolute_components hDoubled hLast hClean
    rw [components_clean, head?_clean hClean, if_pos h] at hParts
    exact hParts.symm

theorem clean_absolute_components (s : Bytes) :
    clean (absolute 47 (components 47 s)) = absolute 47 (components 47 s) := by
  have h := clean_rooted (s := 47 :: s) rfl
  rw [components_cons_self] at h
  rw [← h, clean_clean]

theorem canonical_of_components {s : Bytes} (h : components 47 s ≠ []) :
    Canonical (absolute 47 (components 47 s)) := by
  obtain ⟨hDoubled, hLast⟩ := clean_tidy (absolute 47 (components 47 s))
  rw [clean_absolute_components] at hDoubled hLast
  refine ⟨?_, hDoubled, fun h => absurd h hLast⟩
  cases hParts : components 47 s with
  | nil => exact absurd hParts h
  | cons part parts => rfl

theorem Canonical.absolute_components {s : Bytes} (h : Canonical s) (hRoot : s ≠ [47]) :
    absolute 47 (components 47 s) = s := by
  obtain ⟨hHead, hDoubled, hLast⟩ := h
  rw [← clean_rooted hHead, clean_of_tidy hDoubled fun h => hRoot (hLast h)]

theorem components_append (left right : Bytes) :
    components 47 (append left right) = components 47 left ++ components 47 right := by
  rw [append, components_clean, List.append_assoc, List.singleton_append, components_append_cons]

theorem append_rooted {left : Bytes} (h : left.head? = some 47) (right : Bytes) :
    append left right = absolute 47 (components 47 left ++ components 47 right) := by
  obtain ⟨rest, rfl⟩ := List.head?_eq_some_iff.mp h
  rw [← components_append, append, components_clean]
  exact clean_rooted rfl

/-! ## What `resolve` gives -/

def resolvedParts (self : ThisNode) (ns name : Bytes) : List Bytes :=
  if name.head? = some 126 then
    let parts := components 47 self.name ++ components 47 name.tail
    if parts = [] then components 47 ns else parts
  else if name.head? = some 47 then components 47 name
  else components 47 ns ++ components 47 name

theorem resolve_false (self : ThisNode) (ns name : Bytes) :
    resolve self ns name false = resolveUnmapped self ns name := by
  rw [resolve]
  simp only [Bool.false_eq_true, and_false, if_false]
  cases resolveUnmapped self ns name <;> rfl

theorem clean_append_root (s : Bytes) : clean (append [47] s) = absolute 47 (components 47 s) := by
  rw [append_rooted rfl, components_cons_self, components_nil, List.nil_append,
    clean_absolute_components]

theorem resolve_eq {self : ThisNode} (hSelf : self.name.head? = some 47) (ns : Bytes) {name : Bytes}
    (hName : name ≠ []) (hValid : validate name = none) :
    resolve self ns name false = .ok (absolute 47 (resolvedParts self ns name)) := by
  rw [resolve_false, resolveUnmapped, hValid]
  simp only [if_neg hName, resolvedParts]
  by_cases hPrivate : name.head? = some 126
  · rw [if_pos hPrivate, if_pos hPrivate, append_rooted hSelf]
    by_cases hParts : components 47 self.name ++ components 47 name.tail = []
    · rw [if_pos hParts, hParts, absolute_nil, if_pos (by decide), clean_append_root, components_append,
        components_nil, List.append_nil]
    · have hHead : (absolute 47 (components 47 self.name ++ components 47 name.tail)).head? = some 47 := by
        obtain ⟨part, parts, hCons⟩ := List.exists_cons_of_ne_nil hParts
        rw [hCons]
        rfl
      rw [if_neg hParts, if_neg (fun h => h hHead), ← components_append_cons, clean_absolute_components]
  · rw [if_neg hPrivate, if_neg hPrivate]
    by_cases hGlobal : name.head? = some 47
    · rw [if_neg (fun h => h hGlobal), if_pos hGlobal, clean_rooted hGlobal]
    · rw [if_pos hGlobal, if_neg hGlobal, clean_append_root, components_append]

/-! ## Canonical results -/

theorem components_eq_nil_iff (s : Bytes) : components 47 s = [] ↔ clean s = [] := by
  constructor
  · intro h
    by_contra hClean
    obtain ⟨hDoubled, hLast⟩ := clean_tidy s
    have hParts := absolute_components hDoubled hLast hClean
    rw [components_clean, h, absolute_nil] at hParts
    split at hParts
    · exact hClean hParts.symm
    · exact List.cons_ne_nil _ _ hParts.symm
  · intro h
    rw [← components_clean, h, components_nil]

theorem Canonical.components_eq_nil_iff {s : Bytes} (h : Canonical s) :
    components 47 s = [] ↔ s = [47] := by
  constructor
  · intro hParts
    by_contra hRoot
    have hSelf := h.absolute_components hRoot
    rw [hParts, absolute_nil] at hSelf
    rw [← hSelf] at h
    exact absurd h.1 (by decide)
  · rintro rfl
    decide

theorem validate_cons_eq_none_iff {c : UInt8} {rest : Bytes} :
    validate (c :: rest) = none ↔
      (isalpha c || c == 47 || c == 126) = true ∧ ∀ d ∈ rest, isValidCharInName d = true := by
  have hFirst : (!isalpha c && c != 47 && c != 126) = !(isalpha c || c == 47 || c == 126) := by
    rw [Bool.not_or, Bool.not_or]
    rfl
  rw [validate, hFirst]
  by_cases hc : (isalpha c || c == 47 || c == 126) = true
  · rw [hc, if_neg (by decide), and_iff_right rfl]
    cases hIndex : rest.findIdx? (fun d => !isValidCharInName d) with
    | none =>
      have hAll := List.findIdx?_eq_none_iff.mp hIndex
      exact iff_of_true rfl fun d hd => by simpa using hAll d hd
    | some i =>
      obtain ⟨hBound, hBad, -⟩ := List.findIdx?_eq_some_iff_getElem.mp hIndex
      refine iff_of_false ?_ fun hAll => ?_
      · dsimp only
        rw [List.getElem?_cons_succ, List.getElem?_eq_getElem hBound]
        exact Option.some_ne_none _
      · rw [hAll _ (List.getElem_mem hBound)] at hBad
        exact absurd hBad (by decide)
  · rw [Bool.not_eq_true] at hc
    rw [hc, if_pos (by decide)]
    exact iff_of_false (Option.some_ne_none _) fun h => absurd h.1 (by decide)

theorem validate_rooted_iff {s : Bytes} (h : s.head? = some 47) :
    validate s = none ↔ ∀ c ∈ s, isValidCharInName c = true := by
  obtain ⟨rest, rfl⟩ := List.head?_eq_some_iff.mp h
  rw [validate_cons_eq_none_iff, List.forall_mem_cons]
  exact and_congr_left' (by decide)

def PartsValid (parts : List Bytes) : Prop := ∀ part ∈ parts, ∀ c ∈ part, isValidCharInName c = true

theorem partsValid_append_iff (front back : List Bytes) :
    PartsValid (front ++ back) ↔ PartsValid front ∧ PartsValid back := List.forall_mem_append

theorem partsValid_components {s : Bytes} (h : ∀ c ∈ s, isValidCharInName c = true) :
    PartsValid (components 47 s) :=
  fun _ hPart c hc => h c (mem_of_mem_components hPart hc)

theorem validate_absolute_iff {parts : List Bytes} (h : parts ≠ []) :
    validate (absolute 47 parts) = none ↔ PartsValid parts := by
  obtain ⟨part, rest, rfl⟩ := List.exists_cons_of_ne_nil h
  rw [validate_rooted_iff rfl]
  exact forall_mem_absolute_iff 47 _ (by decide) _

theorem Canonical.validate_iff {s : Bytes} (h : Canonical s) :
    validate s = none ↔ PartsValid (components 47 s) := by
  by_cases hRoot : s = [47]
  · subst hRoot
    exact iff_of_true (by decide) (partsValid_components (List.forall_mem_singleton.mpr rfl))
  · have hParts := mt h.components_eq_nil_iff.mp hRoot
    rw [← validate_absolute_iff hParts, h.absolute_components hRoot]

/-- The result is canonical, and resolving it again changes nothing in any namespace. -/
def Stable (self : ThisNode) (resolved : Bytes) : Prop :=
  Canonical resolved ∧ ∀ ns', resolve self ns' resolved false = .ok resolved

theorem resolve_error {self : ThisNode} {ns name : Bytes} (h : validate name ≠ none) (resolved : Bytes) :
    resolve self ns name false ≠ .ok resolved := by
  obtain ⟨error, hError⟩ := Option.ne_none_iff_exists'.mp h
  rw [resolve_false, resolveUnmapped, hError]
  simp

theorem stable_absolute_iff {self : ThisNode} (hSelf : self.name.head? = some 47) (s : Bytes) :
    Stable self (absolute 47 (components 47 s)) ↔
      components 47 s ≠ [] ∧ PartsValid (components 47 s) := by
  by_cases hParts : components 47 s = []
  · rw [hParts]
    exact iff_of_false (fun h => absurd h.1.1 (by decide)) fun h => h.1 rfl
  · have hCanonical := canonical_of_components hParts
    have hNonempty : absolute 47 (components 47 s) ≠ [] := mt (absolute_eq_nil_iff 47 _).mp hParts
    rw [← validate_absolute_iff hParts]
    constructor
    · rintro ⟨-, hAgain⟩
      refine ⟨hParts, ?_⟩
      by_contra hInvalid
      exact resolve_error hInvalid _ (hAgain [])
    · rintro ⟨-, hValid⟩
      refine ⟨hCanonical, fun ns' => ?_⟩
      rw [resolve_eq hSelf ns' hNonempty hValid, resolvedParts, hCanonical.1, if_neg (by decide),
        if_pos rfl, ← clean_rooted hCanonical.1, clean_absolute_components]

theorem stable_iff_of_canonical {self : ThisNode} (hSelf : self.name.head? = some 47) {ns : Bytes}
    (hNs : Canonical ns) : Stable self ns ↔ ns ≠ [47] ∧ validate ns = none := by
  by_cases hRoot : ns = [47]
  · subst hRoot
    refine iff_of_false (fun h => ?_) fun h => h.1 rfl
    have hAgain := h.2 []
    rw [resolve_eq hSelf [] (by decide) (by decide), resolvedParts, if_neg (by decide),
      if_pos (by decide), components_cons_self, components_nil, absolute_nil] at hAgain
    cases hAgain
  · have hStable := stable_absolute_iff hSelf ns
    rw [hNs.absolute_components hRoot, ← hNs.validate_iff, ne_eq, hNs.components_eq_nil_iff] at hStable
    exact hStable

/-- What the result starts with is no root, and `validate` accepts it. -/
def Settles (self : ThisNode) (ns name other : Bytes) : Prop :=
  if name = [] then other = [] ∧ ns ≠ [47] ∧ validate ns = none
  else if name.head? = some 47 then clean name ≠ []
  else if name.head? = some 126 then
    if self.name = [47] ∧ clean name = [126] then ns ≠ [47] ∧ validate ns = none
    else validate self.name = none
  else validate ns = none

theorem exists_resolvedParts_eq (self : ThisNode) (ns name : Bytes) :
    ∃ s, resolvedParts self ns name = components 47 s := by
  rw [resolvedParts]
  split
  · dsimp only
    split
    · exact ⟨ns, rfl⟩
    · exact ⟨_, (components_append_cons 47 self.name name.tail).symm⟩
  · split
    · exact ⟨name, rfl⟩
    · exact ⟨_, (components_append_cons 47 ns name).symm⟩

theorem resolvedParts_congr {self : ThisNode} {ns name other : Bytes} (hClean : clean name = clean other)
    (h : clean name ≠ []) : resolvedParts self ns name = resolvedParts self ns other := by
  have hHead : name.head? = other.head? := by
    rw [← head?_clean h, hClean, head?_clean (hClean ▸ h)]
  have hParts : components 47 name = components 47 other := by
    rw [← components_clean name, hClean, components_clean]
  rw [resolvedParts, resolvedParts, ← hHead, hParts]
  by_cases hPrivate : name.head? = some 126
  · obtain ⟨rest, rfl⟩ := List.head?_eq_some_iff.mp hPrivate
    obtain ⟨rest', rfl⟩ := List.head?_eq_some_iff.mp (hHead ▸ hPrivate)
    rw [clean_cons (by decide), clean_cons (by decide), List.cons.injEq] at hClean
    have hTail : components 47 rest = components 47 rest' := by
      rw [← components_clean rest, hClean.2, components_clean]
    rw [if_pos hPrivate, if_pos hPrivate, List.tail_cons, List.tail_cons, hTail]
  · rw [if_neg hPrivate, if_neg hPrivate]

theorem stable_iff_settles {self : ThisNode} {ns name : Bytes} (hSelf : Canonical self.name)
    (hNs : Canonical ns) (hName : validate name = none) (hEmpty : name ≠ []) (other : Bytes) :
    resolvedParts self ns name ≠ [] ∧ PartsValid (resolvedParts self ns name) ↔
      Settles self ns name other := by
  obtain ⟨c, rest, rfl⟩ := List.exists_cons_of_ne_nil hEmpty
  obtain ⟨hFirst, hRest⟩ := validate_cons_eq_none_iff.mp hName
  rw [resolvedParts, Settles, if_neg hEmpty, List.head?_cons]
  by_cases hPrivate : c = 126
  · subst hPrivate
    have hTail : PartsValid (components 47 rest) := partsValid_components hRest
    have hEmptied : components 47 self.name ++ components 47 rest = [] ↔
        self.name = [47] ∧ clean (126 :: rest) = [126] := by
      rw [List.append_eq_nil_iff, hSelf.components_eq_nil_iff, components_eq_nil_iff, clean_cons (by decide),
        List.cons.injEq, and_iff_right rfl]
    have hGlobal : ¬ some (126 : UInt8) = some 47 := by decide
    rw [if_pos rfl, if_neg hGlobal, if_pos rfl, List.tail_cons]
    dsimp only
    by_cases hParts : components 47 self.name ++ components 47 rest = []
    · rw [if_pos hParts, if_pos (hEmptied.mp hParts), ne_eq, hNs.components_eq_nil_iff, hNs.validate_iff]
    · rw [if_neg hParts, if_neg (mt hEmptied.mpr hParts), and_iff_right hParts, partsValid_append_iff,
        hSelf.validate_iff]
      exact and_iff_left hTail
  · rw [if_neg (by simpa using hPrivate)]
    by_cases hGlobal : c = 47
    · subst hGlobal
      have hAll : ∀ d ∈ (47 : UInt8) :: rest, isValidCharInName d = true :=
        List.forall_mem_cons.mpr ⟨by decide, hRest⟩
      rw [if_pos rfl, if_pos rfl, ne_eq, components_eq_nil_iff]
      exact and_iff_left (partsValid_components hAll)
    · have hAlpha : isValidCharInName c = true := by
        have hc : isalpha c = true := by
          simpa [hPrivate, hGlobal] using hFirst
        rw [isValidCharInName, isalnum, hc]
        rfl
      have hParts : components 47 (c :: rest) ≠ [] := by
        rw [ne_eq, components_eq_nil_iff, clean_cons hGlobal]
        exact List.cons_ne_nil _ _
      have hAll : ∀ d ∈ c :: rest, isValidCharInName d = true :=
        List.forall_mem_cons.mpr ⟨hAlpha, hRest⟩
      rw [if_neg (by simpa using hGlobal), if_neg (by simpa using hGlobal),
        if_neg (by simpa using hPrivate), hNs.validate_iff, partsValid_append_iff,
        and_iff_left (partsValid_components hAll)]
      exact and_iff_right fun h => hParts (List.append_eq_nil_iff.mp h).2

theorem clean_ne_nil_of_resolvedParts {self : ThisNode} {ns name : Bytes} (hEmpty : name ≠ [])
    (h : resolvedParts self ns name ≠ []) : clean name ≠ [] := by
  obtain ⟨c, rest, rfl⟩ := List.exists_cons_of_ne_nil hEmpty
  by_cases hc : c = 47
  · subst hc
    rwa [resolvedParts, List.head?_cons, if_neg (by decide), if_pos rfl, ne_eq, components_eq_nil_iff] at h
  · rw [clean_cons hc]
    exact List.cons_ne_nil _ _

theorem resolve_empty {self : ThisNode} {ns : Bytes} (hNs : Canonical ns) :
    resolve self ns [] false = .ok ns := by
  obtain ⟨rest, rfl⟩ := List.head?_eq_some_iff.mp hNs.1
  rw [resolve_false]
  rfl

/-- A name, and any that differs from it in repeated and trailing slashes, resolve to one canonical
name that stays as it is exactly when what the result starts with is no root and is valid. -/
theorem resolve_canonical_iff {self : ThisNode} {ns name other : Bytes} (hSelf : Canonical self.name)
    (hNs : Canonical ns) (hName : validate name = none) (hOther : validate other = none)
    (hClean : clean name = clean other) :
    (∃ resolved, resolve self ns name false = .ok resolved ∧ Canonical resolved ∧
        (∀ ns', resolve self ns' resolved false = .ok resolved) ∧
        resolve self ns other false = .ok resolved) ↔
      Settles self ns name other := by
  by_cases hEmpty : name = []
  · subst hEmpty
    rw [Settles, if_pos rfl, ← stable_iff_of_canonical hSelf.1 hNs, resolve_empty hNs]
    constructor
    · rintro ⟨resolved, hResolved, hCanonical, hAgain, hSame⟩
      cases hResolved
      refine ⟨?_, hCanonical, hAgain⟩
      by_contra hSlashes
      rw [resolve_eq hSelf.1 ns hSlashes hOther] at hSame
      have hParts : resolvedParts self ns other ≠ [] := by
        intro h
        rw [h] at hSame
        cases hSame
        exact absurd hCanonical.1 (by decide)
      exact clean_ne_nil_of_resolvedParts hSlashes hParts hClean.symm
    · rintro ⟨rfl, hCanonical, hAgain⟩
      exact ⟨ns, rfl, hCanonical, hAgain, resolve_empty hNs⟩
  · obtain ⟨s, hs⟩ := exists_resolvedParts_eq self ns name
    have hStable := stable_absolute_iff hSelf.1 s
    rw [← stable_iff_settles hSelf hNs hName hEmpty other, hs, ← hStable,
      resolve_eq hSelf.1 ns hEmpty hName, hs]
    constructor
    · rintro ⟨resolved, hResolved, hCanonical, hAgain, -⟩
      cases hResolved
      exact ⟨hCanonical, hAgain⟩
    · intro h
      have hParts : resolvedParts self ns name ≠ [] := hs ▸ (hStable.mp h).1
      have hLetters := clean_ne_nil_of_resolvedParts hEmpty hParts
      have hOtherEmpty : other ≠ [] := by
        rintro rfl
        exact hLetters hClean
      refine ⟨_, rfl, h.1, h.2, ?_⟩
      rw [resolve_eq hSelf.1 ns hOtherEmpty hOther, ← resolvedParts_congr hClean hLetters, hs]

/-- The name of the root resolves to the empty string. -/
theorem root_resolves_to_empty :
    Canonical (bytes "/talker") ∧ validate (bytes "/") = none ∧
      resolve ⟨bytes "/talker", bytes "/", []⟩ (bytes "/") (bytes "/") false = .ok [] ∧
      ¬ Canonical [] := by
  decide

theorem canonical_talker :
    ∃ resolved, resolve ⟨bytes "/talker", bytes "/", []⟩ (bytes "/") (bytes "~chatter//") false = .ok resolved ∧
      Canonical resolved ∧
      (∀ ns', resolve ⟨bytes "/talker", bytes "/", []⟩ ns' resolved false = .ok resolved) ∧
      resolve ⟨bytes "/talker", bytes "/", []⟩ (bytes "/") (bytes "~chatter") false = .ok resolved :=
  (resolve_canonical_iff (by decide) (by decide) (by decide) (by decide) (by decide)).mpr
    (by rw [Settles]; decide)

end XcRos.Libros.Names
