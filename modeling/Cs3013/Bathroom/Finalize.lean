import Cs3013.Bathroom.Model
import Cs3013.Library.Tally
import Mathlib.Algebra.BigOperators.Field
import Mathlib.Algebra.Order.Ring.Rat
import Mathlib.Tactic.NormNum
import Mathlib.Tactic.Ring

/-!
# The statistics at the end

`Finalize` of `bathroom.c`. Its doubles are rational numbers here, and what it prints are the
fields that it sets.
-/
namespace Cs3013.Bathroom

open Finset Cs3013.Library.Tally

/-- The variables that `Finalize` computes. -/
structure Statistics where
  runtime : ℚ
  vacanttime : ℚ
  occtime : ℚ
  avgqlen : ℚ
  avgnumusers : ℚ

/-- One cell of the loop that adds up the frequencies. -/
def addFrequency (array : Int → Int) (per : Int) (i : Nat) : Int :=
  if array i ≠ -1 then per + array i else per

/-- One cell of the loop that computes the expected value. -/
def addExpected (array : Int → Int) (per : Int) (avg : ℚ) (i : Nat) : ℚ :=
  if array i ≠ -1 then avg + ((array i * 1.00 : ℚ) / per) * i else avg

/-- `Finalize` for `n` threads. -/
def finalize (n : Nat) (starttime endtime : Timeval) (a : Globals) : Statistics :=
  let avgqlen : Int := a.ques.tdiv n
  let avgnumusers : Int := a.uses.tdiv n
  let runtime : ℚ := ((endtime.tvUsec - starttime.tvUsec) +
    1000000 * (endtime.tvSec - starttime.tvSec) : Int) / 1000000
  let vacanttime : ℚ := a.vacanttime / 1000000
  let per := (List.range n).foldl
    (fun per i => (addFrequency a.barray per.1 i, addFrequency a.qarray per.2 i)) (0, 0)
  let avg := (List.range n).foldl
    (fun avg i => (addExpected a.barray per.1 avg.1 i, addExpected a.qarray per.2 avg.2 i))
    ((avgnumusers : ℚ), (avgqlen : ℚ))
  { runtime := runtime
    vacanttime := vacanttime
    occtime := runtime - vacanttime
    avgqlen := avg.2
    avgnumusers := avg.1 }

/-- The cells of an array that have been used. -/
def usedCells (n : Nat) (array : Int → Int) : Finset Nat :=
  (range n).filter fun i => array i ≠ -1

/-- The expected value of the index when each cell counts how often its index has occurred. -/
def expectedValue (n : Nat) (array : Int → Int) : ℚ :=
  (∑ i ∈ usedCells n array, (i : ℚ) * array i) / ((∑ i ∈ usedCells n array, array i : Int) : ℚ)

/-- An array in which something has been counted. -/
structure Histogram (n : Nat) where
  cell : Int → Int
  unused_or_count : ∀ i < n, cell i = -1 ∨ 0 ≤ cell i
  counted : 0 < ∑ i ∈ usedCells n cell, cell i

section Loops

variable {n : Nat} {array : Int → Int}

theorem frequencies_eq : (List.range n).foldl (addFrequency array) 0 =
    ∑ i ∈ usedCells n array, array i := by
  have hloop := foldl_range_if (fun i : Nat => array i ≠ -1) (fun i => array i) 0 n
  rw [zero_add] at hloop
  exact hloop

/-- The loop adds the expected value to what the mean starts from. -/
theorem expected_eq (avg : ℚ) :
    (List.range n).foldl (addExpected array (∑ i ∈ usedCells n array, array i)) avg =
      avg + expectedValue n array := by
  have hloop := foldl_range_if (fun i : Nat => array i ≠ -1)
    (fun i => ((array i * 1.00 : ℚ) / (∑ i ∈ usedCells n array, array i : Int)) * i) avg n
  have hone : (1.00 : ℚ) = 1 := by norm_num
  refine hloop.trans ?_
  rw [expectedValue, sum_div, hone]
  congr 1
  apply sum_congr rfl
  intro i _
  ring

theorem finalize_means (starttime endtime : Timeval) (a : Globals) :
    (finalize n starttime endtime a).avgnumusers =
        (a.uses.tdiv n : Int) + expectedValue n a.barray ∧
      (finalize n starttime endtime a).avgqlen =
        (a.ques.tdiv n : Int) + expectedValue n a.qarray := by
  simp only [finalize]
  rw [foldl_pair, foldl_pair, frequencies_eq, frequencies_eq]
  exact ⟨expected_eq _, expected_eq _⟩

/-- `runtime` takes the seconds of both readings into account, and splits into the time vacant and
the time occupied. -/
theorem finalize_runtime (starttime endtime : Timeval) (a : Globals) :
    (finalize n starttime endtime a).runtime =
        ((endtime.micros - starttime.micros : Int) : ℚ) / 1000000 ∧
      (finalize n starttime endtime a).vacanttime + (finalize n starttime endtime a).occtime =
        (finalize n starttime endtime a).runtime := by
  have hmicros : endtime.micros - starttime.micros =
      (endtime.tvUsec - starttime.tvUsec) + 1000000 * (endtime.tvSec - starttime.tvSec) := by
    unfold Timeval.micros
    ring
  refine ⟨?_, ?_⟩
  · rw [hmicros]
    rfl
  · simp only [finalize]
    ring

theorem tdiv_eq_zero_iff {m : Int} (hm : 0 ≤ m) (hn : 0 < n) : m.tdiv n = 0 ↔ m < n := by
  rw [Int.tdiv_eq_ediv_of_nonneg hm]
  refine ⟨fun hzero => ?_, fun hlt => Int.ediv_eq_zero_of_lt hm hlt⟩
  have hlt := Int.lt_ediv_add_one_mul_self m (Int.natCast_pos.mpr hn)
  rwa [hzero, zero_add, one_mul] at hlt

theorem Histogram.pos (b : Histogram n) : 0 < n := by
  by_contra hn
  obtain rfl : n = 0 := by omega
  exact lt_irrefl 0 b.counted

/-- The two means are the expected values of the histograms exactly when fewer than `n` uses and
waits have been counted, so that the quotients which the means start from are zero. -/
theorem means_iff (b q : Histogram n) (starttime endtime : Timeval) (a : Globals)
    (hb : a.barray = b.cell) (hq : a.qarray = q.cell) (huses : 0 ≤ a.uses) (hques : 0 ≤ a.ques) :
    ((finalize n starttime endtime a).avgnumusers = expectedValue n b.cell ∧
      (finalize n starttime endtime a).avgqlen = expectedValue n q.cell) ↔
        a.uses < n ∧ a.ques < n := by
  obtain ⟨hnumusers, hqlen⟩ := finalize_means (n := n) starttime endtime a
  rw [hnumusers, hqlen, hb, hq, add_eq_right, add_eq_right, Int.cast_eq_zero, Int.cast_eq_zero,
    tdiv_eq_zero_iff huses b.pos, tdiv_eq_zero_iff hques b.pos]

end Loops

/-- Two users who were always alone. -/
def alone : Histogram 2 where
  cell i := if i = 1 then 3 else -1
  unused_or_count := by decide
  counted := by decide +kernel

/-- The fields that `Finalize` reads, after `uses` uses and `ques` waits. -/
def aloneGlobals (uses ques : Int) : Globals :=
  { initializeBathroom ⟨0, 0⟩ with
    uses := uses, ques := ques, barray := alone.cell, qarray := alone.cell }

theorem means_alone : (finalize 2 ⟨0, 0⟩ ⟨1, 0⟩ (aloneGlobals 1 1)).avgnumusers = 1 ∧
    (finalize 2 ⟨0, 0⟩ ⟨1, 0⟩ (aloneGlobals 1 1)).avgqlen = 1 := by
  have hmean : expectedValue 2 alone.cell = 1 := by decide +kernel
  have hmeans := (means_iff alone alone ⟨0, 0⟩ ⟨1, 0⟩ (aloneGlobals 1 1) rfl rfl (by decide)
    (by decide)).mpr (by decide)
  rwa [hmean] at hmeans

/-- With two uses by each of them, the mean number of users is reported as three. -/
theorem means_offset : (finalize 2 ⟨0, 0⟩ ⟨1, 0⟩ (aloneGlobals 4 1)).avgnumusers = 3 ∧
    expectedValue 2 alone.cell = 1 := by
  decide +kernel

end Cs3013.Bathroom
