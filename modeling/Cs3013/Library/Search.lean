import Mathlib.Logic.Function.Iterate
import Mathlib.Tactic.Common

/-!
# Searching along a step

`while (inside x) { if (hit x) return x; x = next x; }`. The loop is run with fuel; `Ends` forgets
it. A search ends at the first hit if it has not left the range before, and where there is neither
a hit nor an end of the range it does not end at all.
-/
namespace Cs3013.Library.Search

variable {α : Type} {inside hit : α → Prop} [DecidablePred inside] [DecidablePred hit]
  {next : α → α} {x y : α}

/-- `none` when the fuel is used up, `some none` when the range has been left. -/
def scan (inside hit : α → Prop) [DecidablePred inside] [DecidablePred hit] (next : α → α) :
    Nat → α → Option (Option α)
  | 0, _ => none
  | fuel + 1, x =>
    if inside x then if hit x then some (some x) else scan inside hit next fuel (next x)
    else some none

/-- The search ends with the given result. -/
def Ends (inside hit : α → Prop) [DecidablePred inside] [DecidablePred hit] (next : α → α) (x : α)
    (r : Option α) : Prop := ∃ fuel, scan inside hit next fuel x = some r

/-- The search goes on for `k` steps. -/
def Passes (inside hit : α → Prop) (next : α → α) (x : α) (k : Nat) : Prop :=
  ∀ j < k, inside (next^[j] x) ∧ ¬ hit (next^[j] x)

theorem scan_passes {k : Nat} (hpass : Passes inside hit next x k) (fuel : Nat) :
    scan inside hit next (k + fuel) x = scan inside hit next fuel (next^[k] x) := by
  induction k generalizing x with
  | zero => rw [Nat.zero_add, Function.iterate_zero_apply]
  | succ k ih =>
    have hx : inside x ∧ ¬ hit x := hpass 0 (Nat.succ_pos k)
    have hrest : Passes inside hit next (next x) k := fun j hj => by
      have hj' := hpass (j + 1) (Nat.succ_lt_succ hj)
      rwa [Function.iterate_succ_apply] at hj'
    rw [Nat.succ_add, scan, if_pos hx.1, if_neg hx.2, ih hrest, ← Function.iterate_succ_apply]

/-- Behind the steps that go on, the search ends where it leaves the range or hits. -/
theorem ends_iff {r : Option α} : Ends inside hit next x r ↔ ∃ k, Passes inside hit next x k ∧
    if inside (next^[k] x) then hit (next^[k] x) ∧ r = some (next^[k] x) else r = none := by
  constructor
  · intro hends
    obtain ⟨fuel, hscan⟩ := hends
    induction fuel generalizing x with
    | zero => cases hscan
    | succ fuel ih =>
      rw [scan] at hscan
      split_ifs at hscan with hin hhit
      · refine ⟨0, fun j hj => absurd hj (Nat.not_lt_zero j), ?_⟩
        rw [Function.iterate_zero_apply, if_pos hin]
        exact ⟨hhit, (Option.some_inj.mp hscan).symm⟩
      · obtain ⟨k, hpass, hlast⟩ := ih hscan
        refine ⟨k + 1, fun j hj => ?_, ?_⟩
        · cases j with
          | zero => exact ⟨hin, hhit⟩
          | succ j => exact hpass j (Nat.lt_of_succ_lt_succ hj)
        · rw [Function.iterate_succ_apply]
          exact hlast
      · refine ⟨0, fun j hj => absurd hj (Nat.not_lt_zero j), ?_⟩
        rw [Function.iterate_zero_apply, if_neg hin]
        exact (Option.some_inj.mp hscan).symm
  · intro hlast
    obtain ⟨k, hpass, hlast⟩ := hlast
    refine ⟨k + 1, ?_⟩
    rw [scan_passes hpass, scan]
    split_ifs at hlast with hin
    · rw [if_pos hin, if_pos hlast.1, hlast.2]
    · rw [if_neg hin, hlast]

/-- A range that is never left: the search ends exactly at a first hit. -/
theorem ends_iff_of_inside (hin : ∀ k, inside (next^[k] x)) {r : Option α} :
    Ends inside hit next x r ↔
      ∃ k, (∀ j < k, ¬ hit (next^[j] x)) ∧ hit (next^[k] x) ∧ r = some (next^[k] x) := by
  rw [ends_iff]
  constructor
  · intro hends
    obtain ⟨k, hpass, hlast⟩ := hends
    rw [if_pos (hin k)] at hlast
    exact ⟨k, fun j hj => (hpass j hj).2, hlast⟩
  · intro hfirst
    obtain ⟨k, hpass, hlast⟩ := hfirst
    refine ⟨k, fun j hj => ⟨hin j, hpass j hj⟩, ?_⟩
    rw [if_pos (hin k)]
    exact hlast

end Cs3013.Library.Search
