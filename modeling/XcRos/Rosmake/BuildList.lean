import XcRos.Foundation.Outcome
import XcRos.Foundation.Postorder
import XcRos.Rosmake.BuildQueue

/-! # The build list of rosmake

`DependencyTracker` with its two caches, `build_or_recurse`, and the way from the packages asked for to the
list that the build queue gets.
-/

namespace XcRos.Rosmake

open XcRos.Foundation Relation

variable {α : Type} [DecidableEq α]

/-- What `rospkg.RosPack` reports; `none` where it raises `ResourceNotFound`. -/
structure RosPack (α : Type) where
  list : List α
  getDepends : α → Bool → Option (List α)
  hasPath : α → Bool

structure DependencyTracker (α : Type) where
  validPackages : List α
  deps1 : α → Option (List α)
  deps : α → Option (List α)

namespace DependencyTracker

/-- `valid_packages` is all that rospkg lists if it is not given. -/
def new (r : RosPack α) (validPackages : Option (List α)) : DependencyTracker α :=
  ⟨validPackages.getD r.list, fun _ => none, fun _ => none⟩

/-- What the tracker is to report of a package: a package that is not found has no dependencies. -/
def tracked (r : RosPack α) (validPackages : List α) (implicit : Bool) (package : α) : List α :=
  ((r.getDepends package implicit).getD []).filter fun p => decide (p ∈ validPackages)

def getDeps1 (r : RosPack α) (t : DependencyTracker α) (package : α) : List α × DependencyTracker α :=
  match t.deps1 package with
  | some found => (found, t)
  | none =>
    let found := tracked r t.validPackages false package
    (found, { t with deps1 := Function.update t.deps1 package (some found) })

def getDeps (r : RosPack α) (t : DependencyTracker α) (package : α) : List α × DependencyTracker α :=
  match t.deps package with
  | some found => (found, t)
  | none =>
    let found := tracked r t.validPackages true package
    (found, { t with deps := Function.update t.deps package (some found) })

def loadFakeDeps (t : DependencyTracker α) (deps deps1 : α → Option (List α)) : DependencyTracker α :=
  { t with deps := deps, deps1 := deps1 }

end DependencyTracker

/-- The fields of `RosMakeAll` that matter to the build list. -/
structure RosMakeAll (α : Type) where
  dependencyTracker : DependencyTracker α
  buildList : List α

/-- One call of `build_or_recurse`; the error is the package for which rosmake exits. -/
def buildOrRecurseStep (r : RosPack α) (robustBuild : Bool)
    (recurse : α × RosMakeAll α → Option (Except α (RosMakeAll α))) :
    α × RosMakeAll α → Option (Except α (RosMakeAll α))
  | (p, s) =>
    if p ∈ s.buildList then some (.ok s)
    else
      let found := s.dependencyTracker.getDeps1 r p
      match inTurn recurse found.1 { s with dependencyTracker := found.2 } with
      | some (.ok s) =>
        if r.hasPath p then some (.ok { s with buildList := s.buildList ++ [p] })
        else if robustBuild then some (.ok s)
        else some (.error p)
      | other => other

def buildOrRecurse (r : RosPack α) (robustBuild : Bool) : Nat → α × RosMakeAll α → Option (Except α (RosMakeAll α)) :=
  fuelled (buildOrRecurseStep r robustBuild)

/-- The list of `main`, before `--specified-only`. -/
def buildListOf (r : RosPack α) (robustBuild : Bool) (fuel : Nat) (requiredPackages : List α) :
    Option (Except α (RosMakeAll α)) :=
  inTurn (buildOrRecurse r robustBuild fuel) requiredPackages ⟨.new r none, []⟩

/-- `--specified-only`: the tracker is replaced in the loop, so only if some package is left. -/
def specifiedOnly (r : RosPack α) (specifiedPackages : List α) (s : RosMakeAll α) : RosMakeAll α :=
  let newList := s.buildList.filter fun pkg => decide (pkg ∈ specifiedPackages)
  { dependencyTracker := if newList = [] then s.dependencyTracker else .new r (some specifiedPackages)
    buildList := newList }

structure Options where
  robust : Bool
  bestEffort : Bool
  specifiedOnly : Bool

/-- What the build queue works on that `main` makes for the packages asked for. -/
def mainBuild (r : RosPack α) (options : Options) (fuel : Nat) (requiredPackages specifiedPackages : List α) :
    Option (Except α (Build α)) :=
  (buildListOf r options.robust fuel requiredPackages).map <| Except.map fun s =>
    let s := if options.specifiedOnly then specifiedOnly r specifiedPackages s else s
    { packages := s.buildList
      deps := fun p => (s.dependencyTracker.getDeps r p).1
      robust := options.robust || options.bestEffort }

/-! ## The caches do not show -/

namespace DependencyTracker

variable {r : RosPack α} {t : DependencyTracker α}

structure Sound (r : RosPack α) (t : DependencyTracker α) : Prop where
  deps1 : ∀ p found, t.deps1 p = some found → found = tracked r t.validPackages false p
  deps : ∀ p found, t.deps p = some found → found = tracked r t.validPackages true p

theorem new_sound (r : RosPack α) (validPackages : Option (List α)) : (new r validPackages).Sound r := ⟨nofun, nofun⟩

theorem Sound.getDeps1_eq (h : t.Sound r) (package : α) :
    (t.getDeps1 r package).1 = tracked r t.validPackages false package := by
  rw [getDeps1]
  split
  · rename_i found hCached
    exact h.deps1 package found hCached
  · rfl

theorem Sound.getDeps_eq (h : t.Sound r) (package : α) :
    (t.getDeps r package).1 = tracked r t.validPackages true package := by
  rw [getDeps]
  split
  · rename_i found hCached
    exact h.deps package found hCached
  · rfl

theorem getDeps1_validPackages (package : α) : (t.getDeps1 r package).2.validPackages = t.validPackages := by
  rw [getDeps1]
  split
  · rfl
  · rfl

theorem Sound.getDeps1 (h : t.Sound r) (package : α) : (t.getDeps1 r package).2.Sound r := by
  rw [DependencyTracker.getDeps1]
  split
  · exact h
  · refine ⟨fun p found hFound => ?_, h.deps⟩
    obtain rfl | hOther := eq_or_ne p package
    · dsimp only at hFound
      rw [Function.update_self] at hFound
      exact (Option.some.inj hFound).symm
    · dsimp only at hFound
      rw [Function.update_of_ne hOther] at hFound
      exact h.deps1 p found hFound

end DependencyTracker

def direct (r : RosPack α) (p : α) : List α := DependencyTracker.tracked r r.list false p

def present (r : RosPack α) (robustBuild : Bool) (p : α) : Except α Bool :=
  if r.hasPath p then .ok true else if robustBuild then .ok false else .error p

/-- The tracker is as `main` has made it, with anything in its caches. -/
def Tracks (r : RosPack α) (s : RosMakeAll α) : Prop :=
  s.dependencyTracker.Sound r ∧ s.dependencyTracker.validPackages = r.list

variable {r : RosPack α} {robustBuild : Bool}

theorem tracks_new (r : RosPack α) : Tracks r ⟨.new r none, []⟩ := ⟨DependencyTracker.new_sound r none, rfl⟩

theorem Tracks.getDeps1 {s : RosMakeAll α} (h : Tracks r s) (p : α) :
    (s.dependencyTracker.getDeps1 r p).1 = direct r p ∧
      Tracks r { s with dependencyTracker := (s.dependencyTracker.getDeps1 r p).2 } := by
  constructor
  · rw [h.1.getDeps1_eq, h.2, direct]
  · exact ⟨h.1.getDeps1 p, (DependencyTracker.getDeps1_validPackages p).trans h.2⟩

theorem buildOrRecurseStep_tracks {recurse : α × RosMakeAll α → Option (Except α (RosMakeAll α))}
    (hRecurse : ∀ p s s', Tracks r s → recurse (p, s) = some (.ok s') → Tracks r s') {p : α} {s s' : RosMakeAll α}
    (h : Tracks r s) (hStep : buildOrRecurseStep r robustBuild recurse (p, s) = some (.ok s')) : Tracks r s' := by
  simp only [buildOrRecurseStep] at hStep
  split at hStep
  · cases hStep
    exact h
  · split at hStep
    · rename_i below hTurn
      have hBelow := inTurn_invariant (Tracks r) (fun a _ t t' => hRecurse a t t') (h.getDeps1 p).2 hTurn
      split at hStep
      · cases hStep
        exact hBelow
      · split at hStep
        · cases hStep
          exact hBelow
        · cases hStep
    · rename_i hTurn
      exact absurd hStep (hTurn s')

theorem buildOrRecurse_tracks {fuel : Nat} {p : α} {s s' : RosMakeAll α} (h : Tracks r s)
    (hRun : buildOrRecurse r robustBuild fuel (p, s) = some (.ok s')) : Tracks r s' := by
  induction fuel generalizing p s s' with
  | zero => cases hRun
  | succ fuel ih => exact buildOrRecurseStep_tracks (fun q t t' ht => ih ht) h hRun

/-- `build_or_recurse` collects packages in postorder, whatever the caches hold. -/
theorem buildOrRecurse_eq {fuel : Nat} {p : α} {s : RosMakeAll α} (h : Tracks r s) :
    (buildOrRecurse r robustBuild fuel (p, s)).map (Except.map RosMakeAll.buildList) =
      collect (direct r) (present r robustBuild) fuel (p, s.buildList) := by
  induction fuel generalizing p s with
  | zero => rfl
  | succ fuel ih =>
    show (buildOrRecurseStep r robustBuild (buildOrRecurse r robustBuild fuel) (p, s)).map _ =
      collectStep (direct r) (present r robustBuild) (collect (direct r) (present r robustBuild) fuel) (p, s.buildList)
    simp only [buildOrRecurseStep, collectStep]
    split
    · rfl
    · obtain ⟨hDeps, hTracks⟩ := h.getDeps1 p
      have hTurn := inTurn_map RosMakeAll.buildList (Tracks r) (fun q t ht => ih ht)
        (fun q t t' ht hRun => buildOrRecurse_tracks ht hRun) (direct r p) hTracks
      rw [hDeps, ← hTurn]
      cases inTurn (buildOrRecurse r robustBuild fuel) (direct r p)
        { s with dependencyTracker := (s.dependencyTracker.getDeps1 r p).2 } with
      | none => rfl
      | some result =>
        cases result with
        | error e => rfl
        | ok below =>
          simp only [Option.map_some, Except.map, append, present]
          cases r.hasPath p with
          | true => rfl
          | false =>
            cases robustBuild with
            | true => rfl
            | false => rfl

/-! ## What is in the list -/

def Requires (r : RosPack α) (p d : α) : Prop := d ∈ direct r p

theorem mem_list_of_requires {p d : α} (h : Requires r p d) : d ∈ r.list :=
  of_decide_eq_true (List.mem_filter.mp h).2

theorem acc_iff_no_cycle (r : RosPack α) (p : α) :
    Acc (fun d p => Requires r p d) p ↔ ∀ d, ReflTransGen (Requires r) p d → ¬ TransGen (Requires r) d d := by
  apply acc_iff_of_finite
  refine ((List.finite_toSet r.list).insert p).subset ?_
  intro d hPath
  obtain rfl | ⟨q, -, hStep⟩ := ReflTransGen.cases_tail hPath
  · exact Set.mem_insert ..
  · exact Set.mem_insert_of_mem _ (mem_list_of_requires hStep)

omit [DecidableEq α] in
theorem present_eq_ok_true {p : α} : present r robustBuild p = .ok true ↔ r.hasPath p = true := by
  rw [present]
  cases r.hasPath p with
  | true => exact iff_of_true rfl rfl
  | false => cases robustBuild <;> exact iff_of_false nofun nofun

omit [DecidableEq α] in
theorem present_eq_error {p q : α} :
    present r robustBuild p = .error q ↔ r.hasPath p = false ∧ robustBuild = false ∧ p = q := by
  rw [present]
  cases r.hasPath p with
  | true => exact iff_of_false nofun nofun
  | false =>
    cases robustBuild with
    | true => exact iff_of_false nofun nofun
    | false => exact ⟨fun h => ⟨rfl, rfl, Except.error.inj h⟩, fun h => congrArg Except.error h.2.2⟩

theorem buildListOf_eq (r : RosPack α) (robustBuild : Bool) (fuel : Nat) (required : List α) :
    (buildListOf r robustBuild fuel required).map (Except.map RosMakeAll.buildList) =
      inTurn (collect (direct r) (present r robustBuild) fuel) required [] :=
  inTurn_map RosMakeAll.buildList (Tracks r) (fun _ _ h => buildOrRecurse_eq h) (fun _ _ _ h hRun => buildOrRecurse_tracks h hRun)
    required (tracks_new r)

theorem grown_buildListOf {fuel : Nat} {required : List α} {s : RosMakeAll α}
    (h : buildListOf r robustBuild fuel required = some (.ok s)) :
    Grown (direct r) (present r robustBuild) required [] s.buildList := by
  have hEq := buildListOf_eq r robustBuild fuel required
  rw [h] at hEq
  exact grown_inTurn (fun p l l' hl => grown_collect hl) .nil hEq.symm

theorem tracks_buildListOf {fuel : Nat} {required : List α} {s : RosMakeAll α}
    (h : buildListOf r robustBuild fuel required = some (.ok s)) : Tracks r s :=
  inTurn_invariant (Tracks r) (fun _ _ _ _ ht hRun => buildOrRecurse_tracks ht hRun) (tracks_new r) h

/-- If there is a list, the packages of it are those required that can be found, each once and behind all it
requires; rosmake exits only for a required package that is missing, in a build that is not robust; and there
is a list exactly if no required package requires itself and, in such a build, none is missing. -/
theorem buildList_exact (r : RosPack α) (robustBuild : Bool) (required : List α) :
    (∀ fuel s, buildListOf r robustBuild fuel required = some (.ok s) →
      s.buildList.Nodup ∧
      (∀ p, p ∈ s.buildList ↔ r.hasPath p = true ∧ ∃ q ∈ required, ReflTransGen (Requires r) q p) ∧
      ∀ front p back, s.buildList = front ++ p :: back →
        ∀ d, TransGen (Requires r) p d → r.hasPath d = true → d ∈ front) ∧
    (∀ fuel p, buildListOf r robustBuild fuel required = some (.error p) →
      robustBuild = false ∧ r.hasPath p = false ∧ ∃ q ∈ required, ReflTransGen (Requires r) q p) ∧
    ((∃ fuel s, buildListOf r robustBuild fuel required = some (.ok s)) ↔
      ∀ q ∈ required, ∀ p, ReflTransGen (Requires r) q p →
        ¬ TransGen (Requires r) p p ∧ (robustBuild = false → r.hasPath p = true)) := by
  refine ⟨fun fuel s h => ?_, fun fuel p h => ?_, ?_⟩
  · have hGrown := grown_buildListOf h
    refine ⟨hGrown.sorted.nodup, fun p => ?_, fun front p back hSplit d hPath hFound => ?_⟩
    · rw [hGrown.mem_iff, present_eq_ok_true]
      rfl
    · have hSorted := hGrown.sorted
      rw [hSplit] at hSorted
      exact hSorted.mem_front hPath (present_eq_ok_true.mpr hFound)
  · have hEq := buildListOf_eq r robustBuild fuel required
    rw [h] at hEq
    obtain ⟨q, hq, d, hPath, hError⟩ := error_collects hEq.symm
    obtain ⟨hMissing, hNot, rfl⟩ := present_eq_error.mp hError
    exact ⟨hNot, hMissing, q, hq, hPath⟩
  · have hLists : (∃ fuel s, buildListOf r robustBuild fuel required = some (.ok s)) ↔
        ∃ fuel listed, inTurn (collect (direct r) (present r robustBuild) fuel) required [] = some (.ok listed) := by
      refine exists_congr fun fuel => ?_
      rw [← buildListOf_eq]
      cases buildListOf r robustBuild fuel required with
      | none => exact iff_of_false nofun nofun
      | some result =>
        cases result with
        | error e => exact iff_of_false nofun nofun
        | ok s => exact iff_of_true ⟨s, rfl⟩ ⟨s.buildList, rfl⟩
    rw [hLists, exists_collects_iff]
    refine forall_congr' fun q => forall_congr' fun _ => ?_
    constructor
    · rintro ⟨hAcc, hNone⟩ p hPath
      refine ⟨(acc_iff_no_cycle r q).mp hAcc p hPath, fun hNot => ?_⟩
      by_contra hMissing
      exact hNone p hPath p (present_eq_error.mpr ⟨by simpa using hMissing, hNot, rfl⟩)
    · intro h
      refine ⟨(acc_iff_no_cycle r q).mpr fun p hPath => (h p hPath).1, fun p hPath e hError => ?_⟩
      obtain ⟨hMissing, hNot, -⟩ := present_eq_error.mp hError
      rw [(h p hPath).2 hNot] at hMissing
      cases hMissing

/-! ## From the list to the build -/

/-- What rospkg documents: `get_path` finds the packages that `list` names, and the implicit dependencies are
what the direct ones lead to. -/
structure RosPack.Documented (r : RosPack α) : Prop where
  hasPath_iff : ∀ p, r.hasPath p = true ↔ p ∈ r.list
  implicit : ∀ p names, r.getDepends p true = some names → ∀ d ∈ names, TransGen (Requires r) p d

theorem mem_list_of_path {p d : α} (h : TransGen (Requires r) p d) : d ∈ r.list := by
  obtain ⟨q, -, hStep⟩ := TransGen.tail'_iff.mp h
  exact mem_list_of_requires hStep

theorem RosPack.Documented.tracked (h : r.Documented) {validPackages : List α} {p d : α}
    (hd : d ∈ DependencyTracker.tracked r validPackages true p) :
    d ∈ validPackages ∧ TransGen (Requires r) p d ∧ r.hasPath d = true := by
  obtain ⟨hMem, hValid⟩ := List.mem_filter.mp hd
  cases hDepends : r.getDepends p true with
  | none =>
    rw [hDepends] at hMem
    cases hMem
  | some names =>
    rw [hDepends] at hMem
    have hPath := h.implicit p names hDepends d hMem
    exact ⟨of_decide_eq_true hValid, hPath, (h.hasPath_iff d).mpr (mem_list_of_path hPath)⟩

/-- The list of a build with what its tracker reports: in order, closed, and without a circle. -/
structure Orderly (b : Build α) : Prop where
  nodup : b.packages.Nodup
  contained : ∀ p ∈ b.packages, ∀ d ∈ b.deps p, d ∈ b.packages
  ordered : b.packages.Pairwise fun p d => d ∉ b.deps p
  irreflexive : ∀ p ∈ b.packages, p ∉ b.deps p

theorem orderly_of_grown (hDocumented : r.Documented) {required kept valid : List α} {listed : List α}
    (h : Grown (direct r) (present r robustBuild) required [] listed) (hKept : kept.Sublist listed)
    (hAll : ∀ d ∈ listed, d ∈ valid → d ∈ kept) (robust : Bool) :
    Orderly ⟨kept, DependencyTracker.tracked r valid true, robust⟩ := by
  refine ⟨h.sorted.nodup.sublist hKept, fun p hp d hd => ?_, ?_, fun p hp hSelf => ?_⟩
  · obtain ⟨hValid, hPath, hFound⟩ := hDocumented.tracked hd
    have hCovered := (h.sorted.covered (hKept.subset hp)).of_reaches hPath.to_reflTransGen
    exact hAll d (hCovered.mem (present_eq_ok_true.mpr hFound)) hValid
  · refine (h.sorted.pairwise.sublist hKept).imp fun hNot hd => ?_
    exact hNot (hDocumented.tracked hd).2.1
  · exact (h.sorted.covered (hKept.subset hp)).not_cycle (hDocumented.tracked hSelf).2.1

theorem orderly_mainBuild (hDocumented : r.Documented) {options : Options} {fuel : Nat}
    {requiredPackages specifiedPackages : List α} {b : Build α}
    (h : mainBuild r options fuel requiredPackages specifiedPackages = some (.ok b)) : Orderly b := by
  obtain ⟨result, hList, hResult⟩ := Option.map_eq_some_iff.mp h
  obtain ⟨s, rfl, rfl⟩ := exists_of_map hResult
  have hGrown := grown_buildListOf hList
  obtain ⟨hSound, hValid⟩ := tracks_buildListOf hList
  have hAllDeps : (fun p => (s.dependencyTracker.getDeps r p).1) = DependencyTracker.tracked r r.list true := by
    funext p
    rw [hSound.getDeps_eq, hValid]
  cases hOnly : options.specifiedOnly with
  | false =>
    simp only [Bool.false_eq_true, if_false]
    rw [hAllDeps]
    exact orderly_of_grown hDocumented hGrown (List.Sublist.refl _) (fun d hd _ => hd) _
  | true =>
    simp only [if_true, specifiedOnly]
    split
    · rename_i hNone
      rw [hNone]
      exact ⟨.nil, nofun, .nil, nofun⟩
    · have hDeps : (fun p => ((DependencyTracker.new r (some specifiedPackages)).getDeps r p).1) =
          DependencyTracker.tracked r specifiedPackages true := by
        funext p
        rw [(DependencyTracker.new_sound r _).getDeps_eq]
        rfl
      rw [hDeps]
      refine orderly_of_grown hDocumented hGrown List.filter_sublist (fun d hd hSpecified => ?_) _
      exact List.mem_filter.mpr ⟨hd, decide_eq_true hSpecified⟩

def chainPack : RosPack Nat where
  list := [2, 0, 1]
  getDepends p implicit := if 3 ≤ p then none else some (if implicit then List.range p else List.range' (p - 1) (min p 1))
  hasPath p := decide (p < 3)

theorem chainPack_documented : chainPack.Documented where
  hasPath_iff p := by
    simp only [chainPack, decide_eq_true_eq, List.mem_cons, List.not_mem_nil, or_false]
    omega
  implicit p names hNames d hd := by
    have hFew : p < 3 ∧ names = List.range p := by
      simp only [chainPack, if_true] at hNames
      split at hNames
      · cases hNames
      · exact ⟨by omega, (Option.some.inj hNames).symm⟩
    obtain ⟨hp, rfl⟩ := hFew
    have hLess := List.mem_range.mp hd
    have hOne : ∀ q, q < 2 → Requires chainPack (q + 1) q := by
      intro q hq
      obtain rfl | rfl : q = 0 ∨ q = 1 := by omega
      · show 0 ∈ direct chainPack 1
        decide
      · show 1 ∈ direct chainPack 2
        decide
    have hPath : ∀ n d, d + n < 2 → TransGen (Requires chainPack) (d + n + 1) d := by
      intro n
      induction n with
      | zero => exact fun d hd => .single (hOne d hd)
      | succ n ih => exact fun d hd => .head (hOne (d + (n + 1)) hd) (ih d (by omega))
    have hSplit : d + (p - d - 1) + 1 = p := by omega
    exact hSplit ▸ hPath (p - d - 1) d (by omega)

def chainBuild : Build Nat :=
  match mainBuild chainPack ⟨false, false, false⟩ 4 [2, 0] [] with
  | some (.ok b) => b
  | _ => ⟨[], fun _ => [], false⟩

end XcRos.Rosmake
