import Mathlib.Data.Fintype.Card
import Mathlib.Algebra.BigOperators.Group.Finset.Piecewise

/-!
# Counting the members of a family with a property

`tally P f` is the number of indices at which the family `f` has the property `P`. A counter that
follows the local states of many processes equals a tally; the rules say how it moves when one
member of the family changes.
-/
namespace Cs3013.Library.Tally

open Finset Function

variable {ι α : Type} [Fintype ι]

def tally (P : α → Prop) [DecidablePred P] (f : ι → α) : Nat :=
  (univ.filter fun i => P (f i)).card

section Rules

variable {P Q : α → Prop} [DecidablePred P] [DecidablePred Q] {f g : ι → α}

theorem tally_congr (h : ∀ i, P (f i) ↔ Q (g i)) : tally P f = tally Q g := by
  unfold tally
  congr 1
  ext i
  simp only [mem_filter, mem_univ, true_and, h]

theorem tally_eq_zero : tally P f = 0 ↔ ∀ i, ¬ P (f i) := by
  simp [tally, filter_eq_empty_iff]

theorem tally_pos : 0 < tally P f ↔ ∃ i, P (f i) := by
  rw [Nat.pos_iff_ne_zero, Ne, tally_eq_zero, not_forall_not]

variable [DecidableEq ι] {t : ι} {a : α}

/-- One member gets the property. -/
theorem tally_gain (ht : ¬ P (f t)) (ha : P a) : tally P (update f t a) = tally P f + 1 := by
  have hset : (univ.filter fun i => P (update f t a i)) =
      insert t (univ.filter fun i => P (f i)) := by
    ext i
    by_cases hi : i = t
    · subst hi
      simp [ha]
    · simp [hi]
  unfold tally
  rw [hset, card_insert_of_notMem (by simp [ht])]

/-- One member loses the property. -/
theorem tally_lose (ht : P (f t)) (ha : ¬ P a) : tally P (update f t a) + 1 = tally P f := by
  have hback := tally_gain (f := update f t a) (t := t) (a := f t) (P := P) (by simpa using ha) ht
  rw [update_idem, update_eq_self] at hback
  exact hback.symm

theorem tally_keep (h : P (f t) ↔ P a) : tally P (update f t a) = tally P f := by
  apply tally_congr
  intro i
  by_cases hi : i = t
  · subst hi
    simp [h]
  · simp [hi]

/-- Two exclusive properties that one member does not have. -/
theorem tally_add_tally_lt (hPQ : ∀ a, P a → ¬ Q a) (hP : ¬ P (f t)) (hQ : ¬ Q (f t)) :
    tally P f + tally Q f < Fintype.card ι := by
  have hdisjoint : Disjoint (univ.filter fun i => P (f i)) (univ.filter fun i => Q (f i)) := by
    rw [disjoint_filter]
    exact fun i _ => hPQ (f i)
  unfold tally
  rw [← card_union_of_disjoint hdisjoint]
  apply card_lt_univ_of_notMem (x := t)
  simp [hP, hQ]

end Rules

/-- A sum over the family, when one member changes. -/
theorem sum_update_add {M : Type} [AddCommMonoid M] [DecidableEq ι] (F : α → M) (f : ι → α)
    (t : ι) (a : α) :
    (∑ i, F (update f t a i)) + F (f t) = (∑ i, F (f i)) + F a := by
  have hrest : ∑ i ∈ univ.erase t, F (update f t a i) = ∑ i ∈ univ.erase t, F (f i) := by
    apply sum_congr rfl
    intro i hi
    rw [update_of_ne (ne_of_mem_erase hi)]
  rw [← sum_erase_add _ _ (mem_univ t), ← sum_erase_add univ (fun i => F (f i)) (mem_univ t), hrest,
    update_self, add_right_comm]

/-- A loop over `0 .. n - 1` that adds up at the indices with a property. -/
theorem foldl_range_if {M : Type} [AddCommMonoid M] (P : Nat → Prop) [DecidablePred P]
    (F : Nat → M) (m : M) (n : Nat) :
    (List.range n).foldl (fun acc i => if P i then acc + F i else acc) m =
      m + ∑ i ∈ (range n).filter P, F i := by
  induction n with
  | zero => rw [List.range_zero, List.foldl_nil, range_zero, filter_empty, sum_empty, add_zero]
  | succ n ih =>
    rw [List.range_succ, List.foldl_append, ih, List.foldl_cons, List.foldl_nil, range_add_one,
      filter_insert]
    by_cases hP : P n
    · have hnew : n ∉ (range n).filter P := fun hn => notMem_range_self (mem_of_mem_filter n hn)
      rw [if_pos hP, if_pos hP, sum_insert hnew, add_assoc, add_comm (F n)]
    · rw [if_neg hP, if_neg hP]

/-- A loop with two independent accumulators. -/
theorem foldl_pair {β κ : Type} (f : α → κ → α) (g : β → κ → β) (l : List κ) (x : α × β) :
    l.foldl (fun acc i => (f acc.1 i, g acc.2 i)) x = (l.foldl f x.1, l.foldl g x.2) := by
  induction l generalizing x with
  | nil => rfl
  | cons i l ih => rw [List.foldl_cons, ih, List.foldl_cons, List.foldl_cons]

end Cs3013.Library.Tally
