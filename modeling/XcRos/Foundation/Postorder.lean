import Mathlib.Data.List.Infix
import Mathlib.Data.List.Nodup
import Mathlib.Logic.Relation
import XcRos.Foundation.Fuel

/-! # Collecting nodes in postorder

A walk that lists a node behind everything below it. A node that is listed already is not walked again; a
node may also be left out, or end the walk with an error. The walk keeps no record of the nodes it is in the
middle of, so it ends exactly if no path from where it starts is infinite.
-/

namespace XcRos.Foundation

open Relation

universe u v

section

variable {α : Type u} {ε σ : Type v}

/-- One after the other, each in the state that the ones before it have left. -/
def inTurn (f : α × σ → Option (Except ε σ)) : List α → σ → Option (Except ε σ)
  | [], s => some (.ok s)
  | a :: rest, s =>
    match f (a, s) with
    | some (.ok s') => inTurn f rest s'
    | other => other

theorem inTurn_cons_ok {f : α × σ → Option (Except ε σ)} {a : α} {rest : List α} {s s' : σ}
    (h : f (a, s) = some (.ok s')) : inTurn f (a :: rest) s = inTurn f rest s' := by
  rw [inTurn, h]

theorem inTurn_cons_cases {f : α × σ → Option (Except ε σ)} {a : α} {rest : List α} {s : σ} {r : Except ε σ}
    (h : inTurn f (a :: rest) s = some r) :
    (∃ s', f (a, s) = some (.ok s') ∧ inTurn f rest s' = some r) ∨ ∃ e, f (a, s) = some (.error e) ∧ r = .error e := by
  rw [inTurn] at h
  split at h
  · rename_i s' hFirst
    exact .inl ⟨s', hFirst, h⟩
  · rename_i hFirst
    cases r with
    | ok s' => exact absurd h (hFirst s')
    | error e => exact .inr ⟨e, h, rfl⟩

theorem inTurn_le {f g : α × σ → Option (Except ε σ)} (h : ∀ x r, f x = some r → g x = some r) {l : List α} {s : σ}
    {r : Except ε σ} (hTurn : inTurn f l s = some r) : inTurn g l s = some r := by
  induction l generalizing s with
  | nil => exact hTurn
  | cons a rest ih =>
    obtain ⟨s', hFirst, hRest⟩ | ⟨e, hFirst, rfl⟩ := inTurn_cons_cases hTurn
    · rw [inTurn_cons_ok (h _ _ hFirst)]
      exact ih hRest
    · rw [inTurn, h _ _ hFirst]

/-- A turn seen through `f`, where the states that it comes from keep an invariant. -/
theorem inTurn_map {τ : Type v} {f : α × σ → Option (Except ε σ)} {g : α × τ → Option (Except ε τ)} (view : σ → τ)
    (inv : σ → Prop) (hSame : ∀ a s, inv s → (f (a, s)).map (Except.map view) = g (a, view s))
    (hInv : ∀ a s s', inv s → f (a, s) = some (.ok s') → inv s') (l : List α) {s : σ} (hs : inv s) :
    (inTurn f l s).map (Except.map view) = inTurn g l (view s) := by
  induction l generalizing s with
  | nil => rfl
  | cons a rest ih =>
    have hFirst := hSame a s hs
    rw [inTurn, inTurn, ← hFirst]
    cases hf : f (a, s) with
    | none => rfl
    | some r =>
      cases r with
      | error e => rfl
      | ok s' => exact ih (hInv a s s' hs hf)

theorem inTurn_invariant {f : α × σ → Option (Except ε σ)} (inv : σ → Prop) {l : List α}
    (hStep : ∀ a ∈ l, ∀ s s', inv s → f (a, s) = some (.ok s') → inv s') {s s' : σ} (hInv : inv s)
    (h : inTurn f l s = some (.ok s')) : inv s' := by
  induction l generalizing s with
  | nil =>
    cases h
    exact hInv
  | cons a rest ih =>
    obtain ⟨next, hFirst, hRest⟩ | ⟨e, -, hError⟩ := inTurn_cons_cases h
    · exact ih (fun b hb => hStep b (List.mem_cons_of_mem a hb)) (hStep a List.mem_cons_self s next hInv hFirst) hRest
    · cases hError

end

section

variable {α ε : Type} (next : α → List α) (finish : α → Except ε Bool)

/-- The node itself, once everything below it has been seen to. -/
def append (a : α) (listed : List α) : Except ε (List α) :=
  match finish a with
  | .ok true => .ok (listed ++ [a])
  | .ok false => .ok listed
  | .error e => .error e

/-- All that is below `a`, and `a` itself, is listed or left out; no path below `a` is infinite. -/
inductive Covered (listed : List α) : α → Prop
  | intro {a : α} (hBelow : ∀ b ∈ next a, Covered listed b)
      (hFinished : finish a = .ok false ∨ finish a = .ok true ∧ a ∈ listed) : Covered listed a

/-- Each node is listed once, behind everything below it. -/
structure Postordered (listed : List α) : Prop where
  nodup : listed.Nodup
  behind : ∀ front a back, listed = front ++ a :: back → finish a = .ok true ∧ ∀ b ∈ next a, Covered next finish front b

variable {next finish}

namespace Covered

variable {listed : List α} {a b : α}

theorem mono (h : Covered next finish listed a) {more : List α} (hMore : listed ⊆ more) :
    Covered next finish more a := by
  induction h with
  | intro _ hFinished ih => exact .intro ih (hFinished.imp_right fun hKept => ⟨hKept.1, hMore hKept.2⟩)

theorem of_reaches (h : Covered next finish listed a) (hPath : ReflTransGen (fun a b => b ∈ next a) a b) :
    Covered next finish listed b := by
  induction hPath with
  | refl => exact h
  | tail _ hStep ih =>
    obtain ⟨hBelow, -⟩ := ih
    exact hBelow _ hStep

theorem mem (h : Covered next finish listed a) (hKept : finish a = .ok true) : a ∈ listed := by
  obtain ⟨-, hLeft | ⟨-, hListed⟩⟩ := h
  · rw [hKept] at hLeft
    cases hLeft
  · exact hListed

theorem ne_error (h : Covered next finish listed a) (e : ε) : finish a ≠ .error e := by
  obtain ⟨-, hLeft | ⟨hKept, -⟩⟩ := h
  · rw [hLeft]
    nofun
  · rw [hKept]
    nofun

theorem acc (h : Covered next finish listed a) : Acc (fun b a => b ∈ next a) a := by
  induction h with
  | intro _ _ ih => exact .intro _ ih

theorem not_cycle (h : Covered next finish listed a) : ¬ TransGen (fun a b => b ∈ next a) a a := by
  induction h with
  | intro _ _ ih =>
    intro hCycle
    obtain ⟨b, hStep, hPath⟩ := TransGen.head'_iff.mp hCycle
    exact ih b hStep (.tail' hPath hStep)

end Covered

namespace Postordered

variable {listed : List α} {a : α}

theorem nil : Postordered next finish [] := ⟨.nil, fun front a back h => by cases front <;> cases h⟩

theorem covered (h : Postordered next finish listed) (ha : a ∈ listed) : Covered next finish listed a := by
  obtain ⟨front, back, rfl⟩ := List.append_of_mem ha
  obtain ⟨hKept, hBelow⟩ := h.behind front a back rfl
  exact .intro (fun b hb => (hBelow b hb).mono (List.subset_append_left ..)) (.inr ⟨hKept, ha⟩)

theorem kept (h : Postordered next finish listed) (ha : a ∈ listed) : finish a = .ok true := by
  obtain ⟨front, back, rfl⟩ := List.append_of_mem ha
  exact (h.behind front a back rfl).1

theorem mem_front {front back : List α} (h : Postordered next finish (front ++ a :: back)) {b : α}
    (hPath : TransGen (fun a b => b ∈ next a) a b) (hKept : finish b = .ok true) : b ∈ front := by
  obtain ⟨c, hStep, hRest⟩ := TransGen.head'_iff.mp hPath
  exact (((h.behind front a back rfl).2 c hStep).of_reaches hRest).mem hKept

theorem concat (h : Postordered next finish listed) (hNew : a ∉ listed) (hKept : finish a = .ok true)
    (hBelow : ∀ b ∈ next a, Covered next finish listed b) : Postordered next finish (listed ++ [a]) := by
  constructor
  · exact List.nodup_append.mpr ⟨h.nodup, List.nodup_singleton a, fun x hx y hy hEq =>
      hNew (List.mem_singleton.mp hy ▸ hEq ▸ hx)⟩
  · intro front c back hSplit
    obtain rfl | ⟨init, last, rfl⟩ := List.eq_nil_or_concat back
    · obtain ⟨rfl, rfl⟩ := List.append_singleton_inj.mp hSplit
      exact ⟨hKept, hBelow⟩
    · have hSplit : listed ++ [a] = front ++ c :: init ++ [last] := by
        rw [hSplit, List.append_assoc, List.cons_append, List.concat_eq_append]
      obtain ⟨rfl, -⟩ := List.append_singleton_inj.mp hSplit
      exact h.behind front c init rfl

theorem front {front back : List α} (h : Postordered next finish (front ++ back)) :
    Postordered next finish front := by
  constructor
  · exact h.nodup.of_append_left
  · rintro init a rest rfl
    exact h.behind init a (rest ++ back) (by rw [List.append_assoc, List.cons_append])

theorem pairwise (h : Postordered next finish listed) :
    listed.Pairwise fun a b => ¬ TransGen (fun a b => b ∈ next a) a b := by
  induction listed using List.reverseRecOn with
  | nil => exact .nil
  | append_singleton front last ih =>
    refine List.pairwise_append.mpr ⟨ih h.front, List.pairwise_singleton _ _, ?_⟩
    intro a ha b hb hPath
    rw [List.mem_singleton.mp hb] at hPath
    obtain ⟨hKept, -⟩ := h.behind front last [] rfl
    have hMem := ((h.front.covered ha).of_reaches hPath.to_reflTransGen).mem hKept
    have hApart := (List.nodup_append.mp h.nodup).2.2
    exact hApart last hMem last (List.mem_singleton.mpr rfl) rfl

end Postordered

theorem append_cases {a : α} {listed listed' : List α} (h : append finish a listed = .ok listed') :
    finish a = .ok true ∧ listed' = listed ++ [a] ∨ finish a = .ok false ∧ listed' = listed := by
  rw [append] at h
  split at h
  · rename_i hKept
    exact .inl ⟨hKept, (Except.ok.inj h).symm⟩
  · rename_i hLeft
    exact .inr ⟨hLeft, (Except.ok.inj h).symm⟩
  · cases h

/-- What has become of the list behind the nodes `from`. -/
structure Grown (next : α → List α) (finish : α → Except ε Bool) (nodes listed listed' : List α) : Prop where
  sorted : Postordered next finish listed'
  keeps : listed <+: listed'
  covered : ∀ a ∈ nodes, Covered next finish listed' a
  reached : ∀ b ∈ listed', b ∈ listed ∨ ∃ a ∈ nodes, ReflTransGen (fun a b => b ∈ next a) a b

theorem Grown.refl {listed : List α} (h : Postordered next finish listed) : Grown next finish [] listed listed :=
  ⟨h, List.prefix_rfl, nofun, fun _ hb => .inl hb⟩

theorem Grown.mem_iff {nodes listed : List α} (h : Grown next finish nodes [] listed) {b : α} :
    b ∈ listed ↔ finish b = .ok true ∧ ∃ a ∈ nodes, ReflTransGen (fun a b => b ∈ next a) a b := by
  constructor
  · intro hb
    refine ⟨h.sorted.kept hb, (h.reached b hb).resolve_left List.not_mem_nil⟩
  · rintro ⟨hKept, a, ha, hPath⟩
    exact ((h.covered a ha).of_reaches hPath).mem hKept

theorem Grown.cons {a : α} {nodes listed listed' listed'' : List α} (h : Grown next finish [a] listed listed')
    (hRest : Grown next finish nodes listed' listed'') : Grown next finish (a :: nodes) listed listed'' := by
  constructor
  · exact hRest.sorted
  · exact h.keeps.trans hRest.keeps
  · intro b hb
    obtain rfl | hb := List.mem_cons.mp hb
    · exact (h.covered b (List.mem_singleton.mpr rfl)).mono hRest.keeps.subset
    · exact hRest.covered b hb
  · intro b hb
    obtain hOld | ⟨c, hc, hPath⟩ := hRest.reached b hb
    · obtain hOlder | ⟨c, hc, hPath⟩ := h.reached b hOld
      · exact .inl hOlder
      · rw [List.mem_singleton.mp hc] at hPath
        exact .inr ⟨a, List.mem_cons_self, hPath⟩
    · exact .inr ⟨c, List.mem_cons_of_mem a hc, hPath⟩

theorem grown_inTurn {f : α × List α → Option (Except ε (List α))}
    (hStep : ∀ a listed listed', Postordered next finish listed → f (a, listed) = some (.ok listed') →
      Grown next finish [a] listed listed')
    {nodes listed listed' : List α} (hSorted : Postordered next finish listed)
    (h : inTurn f nodes listed = some (.ok listed')) : Grown next finish nodes listed listed' := by
  induction nodes generalizing listed with
  | nil =>
    cases h
    exact .refl hSorted
  | cons a rest ih =>
    obtain ⟨below, hFirst, hRest⟩ | ⟨e, -, hError⟩ := inTurn_cons_cases h
    · have hGrown := hStep a listed below hSorted hFirst
      exact hGrown.cons (ih hGrown.sorted hRest)
    · cases hError

theorem error_inTurn {f : α × List α → Option (Except ε (List α))} {nodes listed : List α} {e : ε}
    (h : inTurn f nodes listed = some (.error e)) : ∃ a ∈ nodes, ∃ listed, f (a, listed) = some (.error e) := by
  induction nodes generalizing listed with
  | nil => cases h
  | cons a rest ih =>
    obtain ⟨below, -, hRest⟩ | ⟨e', hFirst, hError⟩ := inTurn_cons_cases h
    · obtain ⟨b, hb, hError⟩ := ih hRest
      exact ⟨b, List.mem_cons_of_mem a hb, hError⟩
    · cases hError
      exact ⟨a, List.mem_cons_self, listed, hFirst⟩

/-! ## What a walk lists -/

section

variable [DecidableEq α]

variable (next finish) in
def collectStep (f : α × List α → Option (Except ε (List α))) : α × List α → Option (Except ε (List α))
  | (a, listed) =>
    if a ∈ listed then some (.ok listed)
    else
      match inTurn f (next a) listed with
      | some (.ok below) => some (append finish a below)
      | other => other

variable (next finish) in
/-- The walk from a node, with what has been listed so far. -/
def collect : Nat → α × List α → Option (Except ε (List α)) := fuelled (collectStep next finish)

theorem collect_monotonic : Monotonic (collectStep next finish) := by
  intro f g hLe x r h
  obtain ⟨a, listed⟩ := x
  simp only [collectStep] at h ⊢
  split
  · rename_i hMem
    rwa [if_pos hMem] at h
  · rename_i hNew
    rw [if_neg hNew] at h
    split at h
    · rename_i below hTurn
      rw [inTurn_le hLe hTurn]
      exact h
    · rename_i hTurn
      have hTurn' := inTurn_le hLe h
      rw [hTurn']
      cases r with
      | ok below => exact absurd h (hTurn below)
      | error e => rfl

theorem collectStep_cases {f : α × List α → Option (Except ε (List α))} {a : α} {listed : List α}
    {r : Except ε (List α)} (h : collectStep next finish f (a, listed) = some r) :
    (a ∈ listed ∧ r = .ok listed) ∨
    (a ∉ listed ∧ ∃ below, inTurn f (next a) listed = some (.ok below) ∧ r = append finish a below) ∨
    ∃ e, inTurn f (next a) listed = some (.error e) ∧ r = .error e := by
  simp only [collectStep] at h
  split at h
  · rename_i hMem
    exact .inl ⟨hMem, (Option.some.inj h).symm⟩
  · rename_i hNew
    split at h
    · rename_i below hTurn
      exact .inr (.inl ⟨hNew, below, hTurn, (Option.some.inj h).symm⟩)
    · rename_i hTurn
      cases r with
      | ok below => exact absurd h (hTurn below)
      | error e => exact .inr (.inr ⟨e, h, rfl⟩)

theorem grown_collect {fuel : Nat} {a : α} {listed listed' : List α} (hSorted : Postordered next finish listed)
    (h : collect next finish fuel (a, listed) = some (.ok listed')) : Grown next finish [a] listed listed' := by
  induction fuel generalizing a listed listed' with
  | zero => cases h
  | succ fuel ih =>
    obtain ⟨hMem, hSame⟩ | ⟨hNew, below, hTurn, hAppend⟩ | ⟨e, -, hError⟩ := collectStep_cases h
    · cases hSame
      refine ⟨hSorted, List.prefix_rfl, fun b hb => ?_, fun _ hb => .inl hb⟩
      rw [List.mem_singleton.mp hb]
      exact hSorted.covered hMem
    · have hGrown := grown_inTurn (fun b l l' hl => ih hl) hSorted hTurn
      have hReached : ∀ b ∈ below, b ∈ listed ∨ ∃ c ∈ [a], ReflTransGen (fun a b => b ∈ next a) c b := by
        intro b hb
        refine (hGrown.reached b hb).imp_right ?_
        rintro ⟨c, hc, hPath⟩
        exact ⟨a, List.mem_singleton.mpr rfl, .head hc hPath⟩
      have hNotYet : a ∉ below := by
        intro hMem
        obtain hOld | ⟨c, hc, hPath⟩ := hGrown.reached a hMem
        · exact hNew hOld
        · exact (hGrown.covered c hc).not_cycle (.tail' hPath hc)
      obtain ⟨hKept, rfl⟩ | ⟨hLeft, rfl⟩ := append_cases hAppend.symm
      · constructor
        · exact hGrown.sorted.concat hNotYet hKept hGrown.covered
        · exact hGrown.keeps.trans (List.prefix_append ..)
        · intro b hb
          rw [List.mem_singleton.mp hb]
          exact .intro (fun c hc => (hGrown.covered c hc).mono (List.subset_append_left ..))
            (.inr ⟨hKept, List.mem_append_right below (List.mem_singleton.mpr rfl)⟩)
        · intro b hb
          obtain hOld | hLast := List.mem_append.mp hb
          · exact hReached b hOld
          · exact .inr ⟨a, List.mem_singleton.mpr rfl, List.mem_singleton.mp hLast ▸ .refl⟩
      · refine ⟨hGrown.sorted, hGrown.keeps, fun b hb => ?_, hReached⟩
        rw [List.mem_singleton.mp hb]
        exact .intro hGrown.covered (.inl hLeft)
    · cases hError

/-! ## How a walk ends -/

theorem error_collect {fuel : Nat} {a : α} {listed : List α} {e : ε}
    (h : collect next finish fuel (a, listed) = some (.error e)) :
    ∃ b, ReflTransGen (fun a b => b ∈ next a) a b ∧ finish b = .error e := by
  induction fuel generalizing a listed with
  | zero => cases h
  | succ fuel ih =>
    obtain ⟨-, hSame⟩ | ⟨-, below, -, hAppend⟩ | ⟨e', hTurn, hError⟩ := collectStep_cases h
    · cases hSame
    · refine ⟨a, .refl, ?_⟩
      rw [append] at hAppend
      split at hAppend
      · cases hAppend
      · cases hAppend
      · rename_i hFinish
        cases hAppend
        exact hFinish
    · cases hError
      obtain ⟨b, hb, l, hBelow⟩ := error_inTurn hTurn
      obtain ⟨c, hPath, hFinish⟩ := ih hBelow
      exact ⟨c, .head hb hPath, hFinish⟩

theorem inTurn_ends {nodes : List α} (h : ∀ a ∈ nodes, ∀ listed, ∃ fuel r, collect next finish fuel (a, listed) = some r)
    (listed : List α) : ∃ fuel r, inTurn (collect next finish fuel) nodes listed = some r := by
  induction nodes generalizing listed with
  | nil => exact ⟨0, .ok listed, rfl⟩
  | cons a rest ih =>
    obtain ⟨fuel, r, hFirst⟩ := h a List.mem_cons_self listed
    cases r with
    | error e => exact ⟨fuel, .error e, by rw [inTurn, hFirst]⟩
    | ok below =>
      obtain ⟨more, r, hRest⟩ := ih (fun b hb => h b (List.mem_cons_of_mem a hb)) below
      have hFirst' := fuelled_le collect_monotonic (Nat.le_max_left fuel more) hFirst
      refine ⟨max fuel more, r, ?_⟩
      rw [inTurn_cons_ok (f := collect next finish (max fuel more)) hFirst']
      exact inTurn_le (fun x r hx => fuelled_le collect_monotonic (Nat.le_max_right fuel more) hx) hRest

theorem collect_ends {a : α} (h : Acc (fun b a => b ∈ next a) a) (listed : List α) :
    ∃ fuel r, collect next finish fuel (a, listed) = some r := by
  induction h generalizing listed with
  | intro a _ ih =>
    obtain ⟨fuel, r, hTurn⟩ := inTurn_ends ih listed
    refine ⟨fuel + 1, ?_⟩
    show ∃ r, collectStep next finish (collect next finish fuel) (a, listed) = some r
    simp only [collectStep, hTurn]
    split
    · exact ⟨_, rfl⟩
    · cases r with
      | ok below => exact ⟨_, rfl⟩
      | error e => exact ⟨_, rfl⟩

theorem error_collects {fuel : Nat} {nodes listed : List α} {e : ε}
    (h : inTurn (collect next finish fuel) nodes listed = some (.error e)) :
    ∃ a ∈ nodes, ∃ b, ReflTransGen (fun a b => b ∈ next a) a b ∧ finish b = .error e := by
  obtain ⟨a, ha, l, hError⟩ := error_inTurn h
  obtain ⟨b, hPath, hFinish⟩ := error_collect hError
  exact ⟨a, ha, b, hPath, hFinish⟩

/-- There is a list of everything below some nodes exactly if no path there is infinite and none ends the walk. -/
theorem exists_collects_iff {nodes : List α} :
    (∃ fuel listed, inTurn (collect next finish fuel) nodes [] = some (.ok listed)) ↔
      ∀ a ∈ nodes, Acc (fun b a => b ∈ next a) a ∧
        ∀ b, ReflTransGen (fun a b => b ∈ next a) a b → ∀ e, finish b ≠ .error e := by
  constructor
  · rintro ⟨fuel, listed, h⟩ a ha
    have hGrown := grown_inTurn (fun a l l' hl => grown_collect hl) .nil h
    exact ⟨(hGrown.covered a ha).acc, fun b hPath e => ((hGrown.covered a ha).of_reaches hPath).ne_error e⟩
  · intro h
    have hEnds (a : α) (ha : a ∈ nodes) (listed : List α) : ∃ fuel r, collect next finish fuel (a, listed) = some r :=
      collect_ends (h a ha).1 listed
    obtain ⟨fuel, r, hTurn⟩ := inTurn_ends hEnds []
    cases r with
    | ok listed => exact ⟨fuel, listed, hTurn⟩
    | error e =>
      obtain ⟨a, ha, b, hPath, hFinish⟩ := error_collects hTurn
      exact absurd hFinish ((h a ha).2 b hPath e)

end

end

end XcRos.Foundation
