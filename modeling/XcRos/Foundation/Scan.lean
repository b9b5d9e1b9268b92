import Mathlib.Algebra.Order.Ring.Nat
import XcRos.Foundation.Outcome

/-! # Scans

A scan reads what is ahead of it and goes on by a number of places, which may be more than there are. What it does
where the input is cut off is said by the spans it goes through: each of them may raise an error when not all of
its places are there, or let it pass.
-/

namespace XcRos.Foundation

variable {α β γ δ ε : Type}

theorem error_of_map {x : Except ε α} {f : α → γ} {e : ε} (h : x.map f = .error e) : x = .error e := by
  cases x with
  | error e' =>
    cases h
    rfl
  | ok a => cases h

abbrev Scan (ε β α : Type) : Type := List β → Except ε (α × Nat)

namespace Scan

def pure (a : α) : Scan ε β α := fun _ => .ok (a, 0)

def bind (m : Scan ε β α) (f : α → Scan ε β γ) : Scan ε β γ := fun s =>
  (m s).bind fun r => (f r.1 (s.drop r.2)).map fun r' => (r'.1, r.2 + r'.2)

def map (g : α → γ) (m : Scan ε β α) : Scan ε β γ := fun s => (m s).map fun r => (g r.1, r.2)

/-- One scan and then another, which does not depend on what the first one reads. -/
def map₂ (g : α → γ → δ) (m : Scan ε β α) (m' : Scan ε β γ) : Scan ε β δ := m.bind fun a => m'.map (g a)

def each (m : Scan ε β α) : Nat → Scan ε β (List α)
  | 0 => pure []
  | n + 1 => map₂ List.cons m (m.each n)

/-- What is ahead, as far as it is there. -/
def slice (n : Nat) : Scan ε β (List β) := fun s => .ok (s.take n, n)

/-- A function of what is ahead, when just so much of it is there. -/
def checked (e : ε) (size expected : Nat) (g : List β → α) : Scan ε β α := fun s =>
  if (s.take size).length = expected then .ok (g (s.take size), size) else .error e

theorem bind_of_ok {m : Scan ε β α} {s : List β} {a : α} {n : Nat} (h : m s = .ok (a, n)) (f : α → Scan ε β γ) :
    m.bind f s = (f a (s.drop n)).map fun r => (r.1, n + r.2) := by
  rw [bind, h]
  rfl

theorem bind_of_error {m : Scan ε β α} {s : List β} {e : ε} (h : m s = .error e) (f : α → Scan ε β γ) :
    m.bind f s = .error e := by
  rw [bind, h]
  rfl

theorem map_eq_ok {m : Scan ε β α} {g : α → γ} {s : List β} {c : γ} {n : Nat} (h : m.map g s = .ok (c, n)) :
    ∃ a, m s = .ok (a, n) ∧ g a = c := by
  obtain ⟨⟨a, n'⟩, hRead, hEq⟩ := exists_of_map h
  cases hEq
  exact ⟨a, hRead, rfl⟩

theorem map_eq_error {m : Scan ε β α} {g : α → γ} {s : List β} {e : ε} (h : m.map g s = .error e) : m s = .error e :=
  error_of_map h

theorem pure_bind (a : α) (f : α → Scan ε β γ) : (pure a).bind f = f a := by
  funext s
  show ((f a s).map fun r => (r.1, 0 + r.2)) = f a s
  cases f a s with
  | error e => rfl
  | ok r => exact congrArg (fun n => Except.ok (r.1, n)) (Nat.zero_add r.2)

theorem map_id (m : Scan ε β α) : m.map id = m := by
  funext s
  show ((m s).map fun r => (r.1, r.2)) = m s
  cases m s <;> rfl

theorem map_map (m : Scan ε β α) (g : α → γ) (g' : γ → δ) : (m.map g).map g' = m.map fun a => g' (g a) := by
  funext s
  show (((m s).map _).map _) = (m s).map _
  cases m s <;> rfl

theorem map_bind (m : Scan ε β α) (g : α → γ) (f : γ → Scan ε β δ) : (m.map g).bind f = m.bind fun a => f (g a) := by
  funext s
  show (((m s).map _).bind _) = (m s).bind _
  cases m s <;> rfl

theorem bind_map (m : Scan ε β α) (f : α → Scan ε β γ) (g : γ → δ) : (m.bind f).map g = m.bind fun a => (f a).map g := by
  funext s
  show ((m s).bind _).map _ = (m s).bind _
  cases m s with
  | error e => rfl
  | ok r =>
    show ((f r.1 (s.drop r.2)).map _).map _ = ((f r.1 (s.drop r.2)).map _).map _
    cases f r.1 (s.drop r.2) <;> rfl

theorem bind_assoc (m : Scan ε β α) (f : α → Scan ε β γ) (f' : γ → Scan ε β δ) :
    (m.bind f).bind f' = m.bind fun a => (f a).bind f' := by
  funext s
  cases hFirst : m s with
  | error e => rw [bind_of_error hFirst, bind_of_error (bind_of_error hFirst f)]
  | ok r =>
    have hBind := bind_of_ok hFirst f
    rw [bind_of_ok hFirst]
    cases hSecond : f r.1 (s.drop r.2) with
    | error e =>
      rw [hSecond] at hBind
      rw [bind_of_error hBind, bind_of_error hSecond]
      rfl
    | ok r' =>
      rw [hSecond] at hBind
      rw [bind_of_ok hBind, bind_of_ok hSecond, List.drop_drop]
      cases f' r'.1 (s.drop (r.2 + r'.2)) with
      | error e => rfl
      | ok r'' => exact congrArg (fun n => Except.ok (r''.1, n)) (Nat.add_assoc r.2 r'.2 r''.2)

theorem map₂_pure (m : Scan ε β α) (b : γ) (g : α → γ → δ) : map₂ g m (pure b) = m.map fun a => g a b := by
  funext s
  show ((m s).bind fun r => .ok (g r.1 b, r.2 + 0)) = (m s).map fun r => (g r.1 b, r.2)
  cases m s <;> rfl

theorem map₂_checked (e : ε) (n m : Nat) (a : List β → α) (b : List β → γ) (g : α → γ → δ) :
    map₂ g (checked e n n a) (checked e m m b) = checked e (n + m) (n + m) fun s => g (a (s.take n)) (b (s.drop n)) := by
  funext s
  have hTake : (s.take (n + m)).take n = s.take n := by rw [List.take_take, Nat.min_eq_left (Nat.le_add_right n m)]
  have hDrop : (s.take (n + m)).drop n = (s.drop n).take m := by rw [List.drop_take, Nat.add_sub_cancel_left]
  have hFront : checked e n n a s = if n ≤ s.length then .ok (a (s.take n), n) else .error e :=
    if_congr (by rw [List.length_take]; omega) rfl rfl
  have hBack : checked e m m b (s.drop n) = if m ≤ s.length - n then .ok (b ((s.drop n).take m), m) else .error e :=
    if_congr (by rw [List.length_take, List.length_drop]; omega) rfl rfl
  have hBoth : checked e (n + m) (n + m) (fun s => g (a (s.take n)) (b (s.drop n))) s =
      if n + m ≤ s.length then .ok (g (a (s.take n)) (b ((s.drop n).take m)), n + m) else .error e := by
    rw [checked, hTake, hDrop]
    exact if_congr (by rw [List.length_take]; omega) rfl rfl
  rw [hBoth, map₂]
  rcases Nat.lt_or_ge s.length n with hLess | hGe
  · rw [if_neg (Nat.not_le.mpr hLess)] at hFront
    rw [bind_of_error hFront, if_neg (by omega)]
  · rw [if_pos hGe] at hFront
    rw [bind_of_ok hFront, map, hBack]
    rcases Nat.lt_or_ge (s.length - n) m with hLess | hRest
    · rw [if_neg (Nat.not_le.mpr hLess), if_neg (by omega)]
      rfl
    · rw [if_pos hRest, if_pos (by omega)]
      rfl

end Scan

/-! ## Spans -/

/-- A stretch of the input, and what is raised when just so many of its places are there. -/
structure Span (ε : Type) where
  size : Nat
  fault : Nat → Option ε

namespace Span

def total (spans : List (Span ε)) : Nat := (spans.map Span.size).sum

/-- What is raised when the input ends behind so many places. -/
def firstFault : List (Span ε) → Nat → Option ε
  | [], _ => none
  | span :: spans, k => (if k < span.size then span.fault k else none).or (firstFault spans (k - span.size))

theorem total_append (spans more : List (Span ε)) : total (spans ++ more) = total spans + total more := by
  rw [total, List.map_append, List.sum_append]
  rfl

theorem firstFault_append (spans more : List (Span ε)) (k : Nat) :
    firstFault (spans ++ more) k = (firstFault spans k).or (firstFault more (k - total spans)) := by
  induction spans generalizing k with
  | nil => rfl
  | cons span spans ih =>
    rw [List.cons_append, firstFault, firstFault, ih, Option.or_assoc, Nat.sub_sub]
    rfl

theorem firstFault_of_le {spans : List (Span ε)} {k : Nat} (h : total spans ≤ k) : firstFault spans k = none := by
  induction spans generalizing k with
  | nil => rfl
  | cons span spans ih =>
    have hTotal : total (span :: spans) = span.size + total spans := List.sum_cons
    rw [firstFault, if_neg (by omega), ih (by omega)]
    rfl

theorem firstFault_of_strict {spans : List (Span ε)} {e : ε} (h : ∀ span ∈ spans, ∀ k, span.fault k = some e) (k : Nat) :
    firstFault spans k = if k < total spans then some e else none := by
  induction spans generalizing k with
  | nil => rfl
  | cons span spans ih =>
    have hTotal : total (span :: spans) = span.size + total spans := List.sum_cons
    have hTail := ih (fun span' hSpan => h span' (List.mem_cons_of_mem span hSpan)) (k - span.size)
    rw [firstFault, hTail]
    rcases Nat.lt_or_ge k span.size with hLess | hLe
    · rw [if_pos hLess, h span List.mem_cons_self, Option.some_or, if_pos (by omega)]
    · rw [if_neg (Nat.not_lt.mpr hLe), Option.none_or]
      exact if_congr (by omega) rfl rfl

end Span

open Span

/-! ## What scans make of cut off input -/

/-- The scan reads `a` from `s`, whatever follows, through these spans. From less it goes on as far, or raises
what the spans say. -/
structure Covers (m : Scan ε β α) (spans : List (Span ε)) (s : List β) (a : α) : Prop where
  whole : ∀ rest, m (s ++ rest) = .ok (a, s.length)
  total : total spans = s.length
  cut : ∀ k, (m (s.take k)).map Prod.snd = (firstFault spans k).elim (.ok s.length) .error

theorem goes_on {x : Except ε (γ × Nat)} {o : Option ε} {n : Nat} (h : x.map Prod.snd = o.elim (.ok n) .error) (m : Nat) :
    (x.map fun r => (r.1, m + r.2)).map Prod.snd = o.elim (.ok (m + n)) .error := by
  cases x with
  | error e =>
    cases o with
    | none => cases h
    | some e' => exact h
  | ok r =>
    cases o with
    | none => exact congrArg (fun n => Except.ok (m + n)) (Except.ok.inj h)
    | some e' => cases h

namespace Covers

variable {m : Scan ε β α} {spans more : List (Span ε)} {s t : List β} {a : α} {n : Nat}

theorem exact (h : Covers m spans s a) : m s = .ok (a, s.length) := by
  have := h.whole []
  rwa [List.append_nil] at this

theorem of_ok (h : Covers m spans s a) {k : Nat} (hCut : firstFault spans k = none) : ∃ a', m (s.take k) = .ok (a', s.length) := by
  have hSize := h.cut k
  rw [hCut, Option.elim_none] at hSize
  obtain ⟨⟨a', n⟩, hRead, rfl⟩ := exists_of_map hSize
  exact ⟨a', hRead⟩

theorem of_fault (h : Covers m spans s a) {k : Nat} {e : ε} (hCut : firstFault spans k = some e) : m (s.take k) = .error e := by
  have hError := h.cut k
  rw [hCut, Option.elim_some] at hError
  cases hRead : m (s.take k) with
  | error e' =>
    rw [hRead] at hError
    cases hError
    rfl
  | ok r =>
    rw [hRead] at hError
    cases hError

theorem pure (a : α) : Covers (Scan.pure a : Scan ε β α) [] [] a where
  whole := fun _ => rfl
  total := rfl
  cut := fun k => by
    rw [List.take_nil]
    rfl

theorem map (h : Covers m spans s a) (g : α → γ) : Covers (m.map g) spans s (g a) where
  whole := fun rest => by
    rw [Scan.map, h.whole rest]
    rfl
  total := h.total
  cut := fun k => by
    rw [← h.cut k, Scan.map]
    cases m (s.take k) <;> rfl

theorem bind (h : Covers m spans s a) {f : α → Scan ε β γ} {next : α → γ}
    (hNext : ∀ a', (∃ k, m (s.take k) = .ok (a', s.length)) → Covers (f a') more t (next a')) :
    Covers (m.bind f) (spans ++ more) (s ++ t) (next a) := by
  have hOwn : Covers (f a) more t (next a) := hNext a ⟨s.length, by rw [List.take_length, h.exact]⟩
  constructor
  · intro rest
    have hFirst := h.whole (t ++ rest)
    rw [List.append_assoc, Scan.bind_of_ok hFirst, List.drop_left, hOwn.whole rest, List.length_append]
    rfl
  · rw [total_append, h.total, hOwn.total, List.length_append]
  · intro k
    rw [firstFault_append, h.total, List.length_append]
    rcases Nat.le_total k s.length with hLe | hGe
    · rw [List.take_append_of_le_length hLe, Nat.sub_eq_zero_of_le hLe]
      cases hCut : firstFault spans k with
      | some e =>
        rw [Scan.bind_of_error (h.of_fault hCut)]
        rfl
      | none =>
        -- What the first scan reads here may be another value, as if all had been there.
        obtain ⟨a', hRead⟩ := h.of_ok hCut
        have hDrop : (s.take k).drop s.length = t.take 0 := by
          rw [List.take_zero, List.drop_eq_nil_iff]
          exact List.length_take_le' k s
        rw [Scan.bind_of_ok hRead, hDrop, Option.none_or]
        exact goes_on ((hNext a' ⟨k, hRead⟩).cut 0) s.length
    · obtain ⟨l, rfl⟩ := Nat.exists_eq_add_of_le hGe
      rw [List.take_length_add_append, Scan.bind_of_ok (h.whole _), List.drop_left, Nat.add_sub_cancel_left,
        firstFault_of_le (h.total ▸ hGe), Option.none_or]
      exact goes_on (hOwn.cut l) s.length

theorem map₂ (h : Covers m spans s a) {m' : Scan ε β γ} {b : γ} (h' : Covers m' more t b) (g : α → γ → δ) :
    Covers (Scan.map₂ g m m') (spans ++ more) (s ++ t) (g a b) :=
  h.bind fun a' _ => h'.map (g a')

theorem bind_strict (h : Covers m spans s a) (hStrict : ∀ k < s.length, (firstFault spans k).isSome) {f : α → Scan ε β γ}
    {b : γ} (hNext : Covers (f a) more t b) : Covers (m.bind f) (spans ++ more) (s ++ t) b := by
  suffices hAny : ∀ a', (∃ k, m (s.take k) = .ok (a', s.length)) → Covers (f a') more t ((fun _ => b) a') from h.bind hAny
  intro a' hRead
  obtain ⟨k, hk⟩ := hRead
  rcases Nat.lt_or_ge k s.length with hLess | hGe
  · obtain ⟨e, hFault⟩ := Option.isSome_iff_exists.mp (hStrict k hLess)
    rw [h.of_fault hFault] at hk
    cases hk
  · rw [List.take_of_length_le hGe, h.exact] at hk
    cases hk
    exact hNext

theorem each {g : γ → α} {parts : γ → List (Span ε)} {enc : γ → List β} {cs : List γ}
    (h : ∀ c ∈ cs, Covers m (parts c) (enc c) (g c)) :
    Covers (m.each cs.length) (cs.flatMap parts) (cs.flatMap enc) (cs.map g) := by
  induction cs with
  | nil => exact pure []
  | cons c cs ih =>
    have hTail := ih fun d hd => h d (List.mem_cons_of_mem c hd)
    rw [List.flatMap_cons, List.flatMap_cons, List.map_cons]
    exact (h c List.mem_cons_self).map₂ hTail List.cons

theorem checked {e : ε} (hLength : s.length = n) (hStrict : ∀ span ∈ spans, ∀ k, span.fault k = some e)
    (hTotal : Span.total spans = n) (g : List β → α) : Covers (Scan.checked e n n g) spans s (g s) where
  whole := fun rest => by
    rw [Scan.checked, List.take_left' hLength, if_pos hLength, hLength]
  total := hTotal.trans hLength.symm
  cut := fun k => by
    rw [firstFault_of_strict hStrict, hTotal, Scan.checked, List.take_take, List.length_take, hLength]
    rcases Nat.lt_or_ge k n with hLess | hGe
    · rw [if_neg (by omega), if_pos hLess]
      rfl
    · rw [if_pos (by omega), if_neg (Nat.not_lt.mpr hGe)]
      rfl

end Covers

end XcRos.Foundation
