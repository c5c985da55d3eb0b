import Mathlib.Data.Fin.Tuple.Basic
import Mathlib.Data.List.FinRange
import Mathlib.Data.List.GetD

/-!
# Lists in arrays of a fixed size

A list written over the first cells of an array leaves the cells behind it as they are. Where they
are blank, appending an element fills the first blank cell. The loop that copies each cell from the
one behind it, from a given index on, closes a gap but leaves the last cell as it is.
-/
namespace Cs3013.Library.Slots

open Function

variable {n : Nat} {α : Type} {blank x : α} {l : List α}

/-- The list written over the first cells. -/
def overwrite (l : List α) (f : Fin n → α) : Fin n → α := fun i => l.getD i (f i)

/-- The list, and `blank` in the cells behind it. -/
def packed (n : Nat) (blank : α) (l : List α) : Fin n → α := overwrite l fun _ => blank

/-- `for (i = k; i < n; i++) f[i] = f[i+1]` for an array of `n + 1` cells. -/
def shift (k : Nat) (f : Fin (n + 1) → α) : Fin (n + 1) → α :=
  ((List.finRange n).drop k).foldl (fun f i => update f i.castSucc (f i.succ)) f

section Overwrite

variable {f : Fin n → α}

@[simp] theorem overwrite_nil : overwrite [] f = f := rfl

theorem overwrite_of_lt {i : Fin n} (h : i.val < l.length) : overwrite l f i = l[i.val] :=
  List.getD_eq_getElem l (f i) h

theorem overwrite_of_le {i : Fin n} (h : l.length ≤ i.val) : overwrite l f i = f i :=
  List.getD_eq_default l (f i) h

/-- The next element goes into the cell behind the list. -/
theorem update_overwrite (hn : l.length < n) :
    update (overwrite l f) ⟨l.length, hn⟩ x = overwrite (l ++ [x]) f := by
  funext i
  by_cases hi : i = ⟨l.length, hn⟩
  · subst hi
    rw [update_self, overwrite_of_lt (by simp)]
    simp
  · have hne : i.val ≠ l.length := fun heq => hi (Fin.ext heq)
    rw [update_of_ne hi]
    rcases Nat.lt_or_gt_of_ne hne with hlt | hgt
    · rw [overwrite_of_lt hlt, overwrite_of_lt (by simp; omega), List.getElem_append_left hlt]
    · rw [overwrite_of_le (by omega), overwrite_of_le (by simp; omega)]

/-- The cells of the array: the list, then the old cells. -/
theorem ofFn_overwrite (hn : l.length ≤ n) :
    List.ofFn (overwrite l f) = l ++ (List.ofFn f).drop l.length := by
  apply List.ext_getElem
  · simp
    omega
  · intro i hi _
    rw [List.getElem_ofFn]
    by_cases hlt : i < l.length
    · rw [overwrite_of_lt hlt, List.getElem_append_left hlt]
    · rw [overwrite_of_le (not_lt.mp hlt), List.getElem_append_right (not_lt.mp hlt),
        List.getElem_drop, List.getElem_ofFn]
      congr 1
      apply Fin.ext
      simp
      omega

theorem prefix_overwrite (hn : l.length ≤ n) : l <+: List.ofFn (overwrite l f) := by
  rw [ofFn_overwrite hn]
  exact List.prefix_append _ _

/-- The cells begin with the list without one of its elements only if this is the last one. -/
theorem prefix_overwrite_without {front back : List α} (hx : x ∉ back)
    (hn : (front ++ x :: back).length ≤ n) :
    front ++ back <+: List.ofFn (overwrite (front ++ x :: back) f) ↔ back = [] := by
  rw [ofFn_overwrite hn, List.append_assoc, List.prefix_append_right_inj]
  cases back with
  | nil => exact ⟨fun _ => rfl, fun _ => List.nil_prefix⟩
  | cons y back =>
    refine ⟨fun hfirst => ?_, nofun⟩
    rw [List.cons_append, List.cons_prefix_cons] at hfirst
    exact absurd (hfirst.1 ▸ List.mem_cons_self) hx

/-- One element too many goes unnoticed only behind all others, where it lay before. -/
theorem overwrite_without {front back : List α} (hx : x ∉ back)
    (hn : (front ++ x :: back).length ≤ n) :
    overwrite (front ++ x :: back) f = overwrite (front ++ back) f ↔
      back = [] ∧ ∃ h : front.length < n, f ⟨front.length, h⟩ = x := by
  have hlt : front.length < n := by
    rw [List.length_append, List.length_cons] at hn
    omega
  constructor
  · intro heq
    have hcell := congrFun heq ⟨front.length, hlt⟩
    rw [overwrite_of_lt (by simp)] at hcell
    cases back with
    | nil =>
      rw [overwrite_of_le (by simp)] at hcell
      exact ⟨rfl, hlt, by simpa using hcell.symm⟩
    | cons y back =>
      rw [overwrite_of_lt (by simp)] at hcell
      have hxy : x = y := by simpa using hcell
      exact absurd (hxy ▸ List.mem_cons_self) hx
  · intro hlast
    obtain ⟨rfl, h, hcell⟩ := hlast
    have hold : overwrite front f = update (overwrite front f) ⟨front.length, h⟩ x := by
      rw [← hcell, ← overwrite_of_le (l := front) (f := f) (i := ⟨front.length, h⟩) le_rfl,
        update_eq_self]
    rw [List.append_nil, ← update_overwrite h, ← hold]

end Overwrite

section Packed

theorem packed_of_lt {i : Fin n} (h : i.val < l.length) : packed n blank l i = l[i.val] :=
  overwrite_of_lt h

theorem packed_of_le {i : Fin n} (h : l.length ≤ i.val) : packed n blank l i = blank :=
  overwrite_of_le (f := fun _ => blank) h

theorem packed_eq_blank_iff (hblank : blank ∉ l) {i : Fin n} :
    packed n blank l i = blank ↔ l.length ≤ i.val := by
  constructor
  · intro hi
    by_contra hlt
    rw [packed_of_lt (not_le.mp hlt)] at hi
    exact hblank (hi ▸ List.getElem_mem _)
  · exact packed_of_le

theorem mem_of_packed {i : Fin n} (h : packed n blank l i ≠ blank) : packed n blank l i ∈ l := by
  have hi : i.val < l.length := by
    by_contra hge
    exact h (packed_of_le (not_lt.mp hge))
  rw [packed_of_lt hi]
  exact List.getElem_mem hi

/-- The next element goes into the first blank cell. -/
theorem update_packed (hn : l.length < n) :
    update (packed n blank l) ⟨l.length, hn⟩ x = packed n blank (l ++ [x]) :=
  update_overwrite (f := fun _ => blank) hn

end Packed

section Shift

variable {f : Fin (n + 1) → α}

/-- The loop over any increasing indices: each cell copied comes from before the loop. -/
theorem foldl_shift {is : List (Fin n)} (hsorted : is.Pairwise (· < ·)) (f : Fin (n + 1) → α) :
    (∀ i : Fin n, is.foldl (fun f i => update f i.castSucc (f i.succ)) f i.castSucc =
      if i ∈ is then f i.succ else f i.castSucc) ∧
    is.foldl (fun f i => update f i.castSucc (f i.succ)) f (Fin.last n) = f (Fin.last n) := by
  induction is generalizing f with
  | nil => exact ⟨fun i => by rw [if_neg List.not_mem_nil]; rfl, rfl⟩
  | cons j is ih =>
    rw [List.pairwise_cons] at hsorted
    obtain ⟨hcells, hlast⟩ := ih hsorted.2 (update f j.castSucc (f j.succ))
    constructor
    · intro i
      rw [List.foldl_cons, hcells]
      by_cases hi : i ∈ is
      · -- the cell behind a later index has not been overwritten
        have hlt := hsorted.1 i hi
        have hne : i.succ ≠ j.castSucc := by
          intro heq
          have hval := congrArg Fin.val heq
          simp at hval
          omega
        rw [if_pos hi, if_pos (List.mem_cons_of_mem j hi), update_of_ne hne]
      · rw [if_neg hi]
        by_cases hij : i = j
        · subst hij
          rw [update_self, if_pos List.mem_cons_self]
        · rw [update_of_ne fun heq => hij (Fin.castSucc_injective n heq),
            if_neg fun hmem => (List.mem_cons.mp hmem).elim hij hi]
    · rw [List.foldl_cons, hlast, update_of_ne (Fin.castSucc_ne_last j).symm]

theorem pairwise_finRange_drop (k : Nat) : ((List.finRange n).drop k).Pairwise (· < ·) :=
  (List.pairwise_lt_finRange n).sublist (List.drop_sublist _ _)

theorem mem_finRange_drop {k : Nat} {i : Fin n} : i ∈ (List.finRange n).drop k ↔ k ≤ i.val := by
  rw [List.mem_drop_iff_getElem]
  constructor
  · intro hmem
    obtain ⟨j, hj, hget⟩ := hmem
    rw [List.getElem_finRange] at hget
    rw [← hget]
    simp
  · intro hk
    refine ⟨i.val - k, by simp; omega, ?_⟩
    rw [List.getElem_finRange]
    apply Fin.ext
    simp
    omega

theorem shift_castSucc (k : Nat) (i : Fin n) :
    shift k f i.castSucc = if k ≤ i.val then f i.succ else f i.castSucc := by
  rw [shift, (foldl_shift (pairwise_finRange_drop k) f).1]
  simp only [mem_finRange_drop]

@[simp] theorem shift_last (k : Nat) : shift k f (Fin.last n) = f (Fin.last n) :=
  (foldl_shift (pairwise_finRange_drop k) f).2

theorem shift_of_lt {k : Nat} {i : Fin (n + 1)} (h : i.val < k) : shift k f i = f i := by
  refine Fin.lastCases (fun _ => shift_last k) (fun j hj => ?_) i h
  rw [shift_castSucc, if_neg (by simpa using hj)]

/-- No cell is copied when the loop starts at the last one. -/
@[simp] theorem shift_self : shift n f = f := by
  funext i
  refine Fin.lastCases (shift_last n) (fun j => ?_) i
  rw [shift_castSucc, if_neg (by omega)]

end Shift

end Cs3013.Library.Slots
