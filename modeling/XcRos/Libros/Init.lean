import Mathlib.Data.List.Perm.Basic
import XcRos.CppCommon.Header

/-! # Command line arguments

`init` moves each argument that holds `:=` behind the others, in the array that it was given. Each move shifts all
that follows, the arguments moved before included.
-/

namespace XcRos.Libros

open XcRos.Foundation XcRos.CppCommon

/-- `:=` -/
def assignment : Bytes := [58, 61]

def isRemapping (arg : Bytes) : Bool := (indexOf assignment arg).isSome

/-- What the loop of `init` changes. -/
structure Arguments where
  argc : Nat
  argv : List Bytes
  remappings : MString

/-- `for (int j = i; j < full_argc - 1; j++) argv[j] = argv[j+1];` -/
def shuffleDown (fullArgc j : Nat) (argv : List Bytes) : List Bytes :=
  if j + 1 < fullArgc then shuffleDown fullArgc (j + 1) (argv.set j (argv.getD (j + 1) []))
  else argv
termination_by fullArgc - j

/-- The loop of `init`; the slot for an argument that is moved is the last one in front of `argc`. -/
def initLoop (fullArgc i : Nat) (args : Arguments) : Arguments :=
  if i < args.argc then
    let arg := args.argv.getD i []
    match indexOf assignment arg with
    | some pos =>
      let remappings := args.remappings.assign (arg.take pos) (arg.drop (pos + 2))
      let argv := (shuffleDown fullArgc i args.argv).set (args.argc - 1) arg
      initLoop fullArgc i ⟨args.argc - 1, argv, remappings⟩
    | none => initLoop fullArgc (i + 1) args
  else args
termination_by args.argc - i

/-- `init(int& argc, char** argv, ...)` as far as the arguments go. -/
def init (argv : List Bytes) : Arguments := initLoop argv.length 0 ⟨argv.length, argv, MString.empty⟩

def removeROSArgs (argv : List Bytes) : List Bytes := argv.filter fun arg => (indexOf assignment arg).isNone

/-- The arguments that are no remappings stand in front, and none is lost or doubled. -/
structure Partitioned (argv : List Bytes) : Prop where
  front : (init argv).argv.take (init argv).argc = removeROSArgs argv
  whole : (init argv).argv.Perm argv

/-! ## One move -/

section

variable {α : Type}

def stuff (moved : List α) (arg : α) : List α := arg :: (moved.tail ++ moved.getLast?.toList)

theorem foldl_stuff_replicate {n : Nat} {x first : α} (hFirst : n = 0 → x = first) (args : List α) :
    args.foldl stuff (x :: List.replicate n first) =
      (x :: args).getLast (List.cons_ne_nil x args) :: List.replicate (n + args.length) first := by
  induction args generalizing x n with
  | nil => rfl
  | cons arg args ih =>
    have hLast : (x :: List.replicate n first).getLast? = some first := by
      rw [List.getLast?_cons, List.getLast?_replicate]
      split
      · rename_i hZero
        rw [hFirst hZero]
        rfl
      · rfl
    have hStuff : stuff (x :: List.replicate n first) arg = arg :: List.replicate (n + 1) first := by
      rw [stuff, hLast, List.tail_cons, List.replicate_succ']
      rfl
    rw [List.foldl_cons, hStuff, ih (by omega), List.getLast_cons_cons, List.length_cons]
    congr 2
    omega

theorem foldl_stuff_perm_iff (args : List α) :
    (args.foldl stuff []).Perm args ↔ ∀ arg ∈ args.dropLast, args.head? = some arg := by
  cases args with
  | nil => simp
  | cons first args =>
    have hMoved : (first :: args).foldl stuff [] =
        (first :: args).getLast (List.cons_ne_nil first args) :: List.replicate args.length first := by
      have h := @foldl_stuff_replicate α 0 first first (fun _ => rfl) args
      rwa [Nat.zero_add] at h
    have hWhole : (first :: args).Perm
        ((first :: args).getLast (List.cons_ne_nil first args) :: (first :: args).dropLast) := by
      conv_lhs => rw [← List.dropLast_append_getLast (List.cons_ne_nil first args)]
      exact List.perm_append_singleton _ _
    have hLength : (first :: args).dropLast.length = args.length := by
      rw [List.length_dropLast, List.length_cons, Nat.add_sub_cancel]
    rw [hMoved, hWhole.congr_right, List.perm_cons, List.replicate_perm, eq_comm, List.eq_replicate_iff,
      and_iff_right hLength, List.head?_cons]
    exact forall₂_congr fun arg _ => ⟨fun h => h ▸ rfl, fun h => (Option.some.inj h).symm⟩

end

theorem getD_append_cons (front rest : List Bytes) (arg : Bytes) :
    (front ++ arg :: rest).getD front.length [] = arg := by
  rw [List.getD_eq_getElem?_getD, List.getElem?_append_right (Nat.le_refl _), Nat.sub_self]
  rfl

theorem shuffleDown_eq (front rest : List Bytes) (arg : Bytes) :
    shuffleDown (front ++ arg :: rest).length front.length (front ++ arg :: rest) =
      front ++ (rest ++ [(arg :: rest).getLast (List.cons_ne_nil arg rest)]) := by
  induction rest generalizing front arg with
  | nil =>
    rw [shuffleDown, if_neg (by simp)]
    rfl
  | cons next rest ih =>
    have hNext : (front ++ arg :: next :: rest).getD (front.length + 1) [] = next := by
      have h := getD_append_cons (front ++ [arg]) rest next
      rwa [List.length_append, List.append_assoc] at h
    have hSet : (front ++ arg :: next :: rest).set front.length next = (front ++ [next]) ++ next :: rest := by
      rw [List.set_append_right _ _ (Nat.le_refl _), Nat.sub_self, List.append_assoc]
      rfl
    have hLength : (front ++ arg :: next :: rest).length = ((front ++ [next]) ++ next :: rest).length := by
      simp
    have hFront : front.length + 1 = (front ++ [next]).length := by simp
    rw [shuffleDown, if_pos (by simp), hNext, hSet, hLength, hFront, ih, List.append_assoc,
      List.getLast_cons_cons]
    rfl

theorem shuffle_stuff (front rest moved : List Bytes) (arg : Bytes) {fullArgc : Nat}
    (hFull : fullArgc = (front ++ arg :: (rest ++ moved)).length) :
    (shuffleDown fullArgc front.length (front ++ arg :: (rest ++ moved))).set (front ++ rest).length arg =
      front ++ (rest ++ stuff moved arg) := by
  rw [hFull, shuffleDown_eq, ← List.append_assoc, ← List.append_assoc, List.append_assoc (front ++ rest),
    List.set_append_right _ _ (Nat.le_refl _), Nat.sub_self, List.append_assoc front]
  congr 2
  cases hMoved : moved with
  | nil => rfl
  | cons first moved =>
    have hLast : (first :: moved).getLast? =
        some ((arg :: (rest ++ first :: moved)).getLast (List.cons_ne_nil _ _)) := by
      rw [← List.getLast?_eq_some_getLast, List.getLast?_cons, ← List.cons_append, List.getLast?_append,
        List.getLast?_cons]
      rfl
    rw [stuff, hLast]
    rfl

/-! ## The loop -/

theorem initLoop_eq (front rest moved : List Bytes) (remappings : MString) {fullArgc : Nat}
    (hFull : fullArgc = (front ++ (rest ++ moved)).length) :
    ∃ remappings', initLoop fullArgc front.length ⟨(front ++ rest).length, front ++ (rest ++ moved), remappings⟩ =
      ⟨(front ++ removeROSArgs rest).length,
        front ++ (removeROSArgs rest ++ (rest.filter isRemapping).foldl stuff moved), remappings'⟩ := by
  induction rest generalizing front moved remappings with
  | nil =>
    rw [initLoop, if_neg (by simp)]
    exact ⟨remappings, rfl⟩
  | cons arg rest ih =>
    have hMore : front.length < (front ++ arg :: rest).length := by simp
    rw [initLoop, if_pos hMore]
    dsimp only
    rw [List.cons_append, getD_append_cons]
    cases hPos : indexOf assignment arg with
    | some pos =>
      have hKept : removeROSArgs (arg :: rest) = removeROSArgs rest :=
        List.filter_cons_of_neg (by rw [hPos, Option.isNone_some]; decide)
      have hMoved : (arg :: rest).filter isRemapping = arg :: rest.filter isRemapping :=
        List.filter_cons_of_pos (by rw [isRemapping, hPos]; rfl)
      have hArgc : (front ++ arg :: rest).length - 1 = (front ++ rest).length := by simp
      have hLength : fullArgc = (front ++ (rest ++ stuff moved arg)).length := by
        rw [← shuffle_stuff front rest moved arg hFull, List.length_set, hFull, List.cons_append, shuffleDown_eq]
        simp [Nat.add_assoc]
      dsimp only
      rw [hArgc, shuffle_stuff front rest moved arg hFull, hKept, hMoved, List.foldl_cons]
      exact ih front (stuff moved arg) _ hLength
    | none =>
      have hKept : removeROSArgs (arg :: rest) = arg :: removeROSArgs rest :=
        List.filter_cons_of_pos (by rw [hPos]; rfl)
      have hMoved : (arg :: rest).filter isRemapping = rest.filter isRemapping :=
        List.filter_cons_of_neg (by rw [isRemapping, hPos]; decide)
      have hNext := ih (front ++ [arg]) moved remappings (by rw [hFull]; simp)
      simp only [List.append_assoc, List.singleton_append] at hNext
      rw [hKept, hMoved]
      rwa [List.length_append, List.length_singleton] at hNext

theorem init_eq (argv : List Bytes) :
    ∃ remappings, init argv =
      ⟨(removeROSArgs argv).length, removeROSArgs argv ++ (argv.filter isRemapping).foldl stuff [], remappings⟩ := by
  have h := initLoop_eq [] argv [] MString.empty rfl
  rwa [List.append_nil, List.nil_append, List.nil_append, List.nil_append] at h

theorem init_front (argv : List Bytes) : (init argv).argv.take (init argv).argc = removeROSArgs argv := by
  obtain ⟨remappings, hInit⟩ := init_eq argv
  rw [hInit]
  exact List.take_left

theorem init_perm_iff (argv : List Bytes) :
    (init argv).argv.Perm argv ↔ ((argv.filter isRemapping).foldl stuff []).Perm (argv.filter isRemapping) := by
  obtain ⟨remappings, hInit⟩ := init_eq argv
  have hOther : removeROSArgs argv = argv.filter fun arg => !isRemapping arg :=
    List.filter_congr fun arg _ => by rw [isRemapping, Option.not_isSome]
  have hSplit : argv.Perm (removeROSArgs argv ++ argv.filter isRemapping) := by
    rw [hOther]
    exact (List.filter_append_perm isRemapping argv).symm.trans List.perm_append_comm
  rw [hInit]
  dsimp only
  rw [hSplit.congr_right, List.perm_append_left_iff]

/-- The array is partitioned just if the remappings are all the same but for the last one, as when there are no more
than two of them. -/
theorem partitioned_iff (argv : List Bytes) :
    Partitioned argv ↔
      ∀ arg ∈ (argv.filter isRemapping).dropLast, (argv.filter isRemapping).head? = some arg := by
  rw [← foldl_stuff_perm_iff, ← init_perm_iff]
  exact ⟨fun h => h.whole, fun h => ⟨init_front argv, h⟩⟩

/-- `a:=1`, `b:=2` and `c:=3` -/
def threeRemappings : List Bytes := [[97, 58, 61, 49], [98, 58, 61, 50], [99, 58, 61, 51]]

/-- The second remapping is gone, and the first one is there twice. -/
theorem not_partitioned_threeRemappings :
    (init threeRemappings).argv = [[99, 58, 61, 51], [97, 58, 61, 49], [97, 58, 61, 49]] ∧
      ¬ Partitioned threeRemappings := by
  obtain ⟨remappings, hInit⟩ := init_eq threeRemappings
  have hArgv : (init threeRemappings).argv = [[99, 58, 61, 51], [97, 58, 61, 49], [97, 58, 61, 49]] := by
    rw [hInit]
    change removeROSArgs threeRemappings ++ (threeRemappings.filter isRemapping).foldl stuff [] = _
    decide
  refine ⟨hArgv, fun h => ?_⟩
  have hLost := @List.Perm.mem_iff _ [98, 58, 61, 50] _ _ h.whole
  rw [hArgv] at hLost
  revert hLost
  decide

end XcRos.Libros
