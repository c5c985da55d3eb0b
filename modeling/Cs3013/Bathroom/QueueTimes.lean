import Cs3013.Bathroom.Model
import Mathlib.Algebra.Order.BigOperators.Group.List
import Mathlib.Algebra.Ring.Int.Defs
import Mathlib.Order.Bounds.Basic

/-!
# The queue times of one thread

The loop of `Individual` in `bathroomsim.c`, with what it prints when the thread ends. An iteration
is given by the two readings around `Enter` and by `wait`. The sums are unbounded.
-/
namespace Cs3013.Bathroom

section Extremes

theorem setOf_mem_append {β : Type} (l : List β) (a : β) :
    {x | x ∈ l ++ [a]} = insert a {x | x ∈ l} := by
  ext x
  simp [or_comm]

variable {α : Type} [LinearOrder α] {l : List α} {m : α}

/-- The least element so far is replaced by a smaller one. -/
theorem isLeast_append (h : IsLeast {x | x ∈ l} m) (a : α) :
    IsLeast {x | x ∈ l ++ [a]} (if a < m then a else m) := by
  rw [setOf_mem_append, ← min_def_lt]
  exact h.insert a

theorem isGreatest_append (h : IsGreatest {x | x ∈ l} m) (a : α) :
    IsGreatest {x | x ∈ l ++ [a]} (if a > m then a else m) := by
  have hmax : max a m = if a > m then a else m := (max_comm a m).trans (max_def_lt m a)
  rw [setOf_mem_append, ← hmax]
  exact h.insert a

end Extremes

/-- What one iteration of the loop measures. -/
structure Iteration where
  before : Timeval
  after : Timeval
  wait : Int

namespace Iteration

variable (it : Iteration)

def lapsed : Int := it.after.tvUsec - it.before.tvUsec

/-- The microseconds between the two readings. -/
def duration : Int := it.after.micros - it.before.micros

def Waited : Prop := it.wait ≠ 0

instance : DecidablePred Waited := fun _ => inferInstanceAs (Decidable (_ ≠ _))

/-- The readings are readings, in this order. -/
def Valid : Prop := it.before.Valid ∧ it.after.Valid ∧ it.before ≤ it.after

instance : DecidablePred Valid := fun _ => inferInstanceAs (Decidable (_ ∧ _ ∧ _))

end Iteration

/-- The variables of the loop. -/
structure QueueStats where
  queuemin : Int
  queuemax : Int
  queuetime : Int
  numwaits : Int

/-- What the thread prints of its queue times. -/
structure QueueTimes where
  queuemin : Int
  avgqueue : Int
  queuemax : Int
  deriving DecidableEq

/-- The body of the loop after `Leave`. -/
def QueueStats.update (q : QueueStats) (it : Iteration) : QueueStats :=
  let queuemax := if it.lapsed > q.queuemax then it.lapsed else q.queuemax
  if it.wait ≠ 0 then
    { queuemax := if it.lapsed > queuemax then it.lapsed else queuemax
      queuemin := if it.lapsed < q.queuemin then it.lapsed else q.queuemin
      numwaits := q.numwaits + 1
      queuetime := q.queuetime + it.lapsed }
  else
    { q with queuemax := queuemax }

/-- What is computed after the loop. -/
def QueueStats.times (q : QueueStats) : QueueTimes :=
  if q.numwaits > 0 then
    ⟨q.queuemin, q.queuetime.tdiv q.numwaits, q.queuemax⟩
  else if q.numwaits = 0 then
    ⟨0, 0, 0⟩
  else
    ⟨q.queuemin, 0, q.queuemax⟩

def individual (iterations : List Iteration) : QueueTimes :=
  (iterations.foldl QueueStats.update ⟨9999999, 0, 0, 0⟩).times

/-- The iterations that waited. -/
def waits (iterations : List Iteration) : List Iteration :=
  iterations.filter (decide <| Iteration.Waited ·)

/-- The printed times describe the durations of the waits. -/
def Describes (r : QueueTimes) (durations : List Int) : Prop :=
  if durations = [] then
    r = ⟨0, 0, 0⟩
  else
    IsLeast {d | d ∈ durations} r.queuemin ∧ IsGreatest {d | d ∈ durations} r.queuemax ∧
      r.avgqueue = durations.sum / durations.length

/-- No wait ends in a later second than it began, and if there is a wait, no iteration has a greater
difference of the microseconds than all the waits. -/
def Measurable (iterations : List Iteration) : Prop :=
  (∀ it ∈ waits iterations, it.after.tvSec = it.before.tvSec) ∧
    (waits iterations ≠ [] → ∀ it ∈ iterations, ∃ w ∈ waits iterations,
      it.after.tvUsec - it.before.tvUsec ≤ w.after.tvUsec - w.before.tvUsec)

/-! ## The loop -/

/-- The variables after the iterations. -/
structure Gathered (iterations : List Iteration) (q : QueueStats) : Prop where
  least : IsLeast {x | x ∈ 9999999 :: (waits iterations).map Iteration.lapsed} q.queuemin
  greatest : IsGreatest {x | x ∈ 0 :: iterations.map Iteration.lapsed} q.queuemax
  queuetime : q.queuetime = ((waits iterations).map Iteration.lapsed).sum
  numwaits : q.numwaits = (waits iterations).length

section Loop

variable {iterations : List Iteration} {it : Iteration} {q : QueueStats}

theorem waits_append (it : Iteration) :
    waits (iterations ++ [it]) = waits iterations ++ if it.Waited then [it] else [] := by
  rw [waits, List.filter_append, waits]
  by_cases hwaited : it.Waited
  · rw [if_pos hwaited, List.filter_singleton, decide_eq_true hwaited]
    rfl
  · rw [if_neg hwaited, List.filter_singleton, decide_eq_false hwaited]
    rfl

/-- The second comparison with the maximum, which only those that waited make, changes nothing. -/
theorem ite_twice (x m : Int) :
    (if x > (if x > m then x else m) then x else if x > m then x else m) =
      if x > m then x else m := by
  split_ifs
  all_goals omega

theorem update_waited (q : QueueStats) (h : it.Waited) : q.update it =
    ⟨if it.lapsed < q.queuemin then it.lapsed else q.queuemin,
      if it.lapsed > q.queuemax then it.lapsed else q.queuemax,
      q.queuetime + it.lapsed, q.numwaits + 1⟩ := by
  have hwait : it.wait ≠ 0 := h
  simp only [QueueStats.update, if_pos hwait, ite_twice]

theorem update_not_waited (q : QueueStats) (h : ¬ it.Waited) : q.update it =
    { q with queuemax := if it.lapsed > q.queuemax then it.lapsed else q.queuemax } := by
  have hwait : ¬ it.wait ≠ 0 := h
  simp only [QueueStats.update, if_neg hwait]

theorem Gathered.update (hq : Gathered iterations q) (it : Iteration) :
    Gathered (iterations ++ [it]) (q.update it) := by
  have hgreatest := isGreatest_append hq.greatest it.lapsed
  rw [List.cons_append, ← List.map_singleton, ← List.map_append] at hgreatest
  by_cases hwaited : it.Waited
  · have hwaits : waits (iterations ++ [it]) = waits iterations ++ [it] := by
      rw [waits_append, if_pos hwaited]
    have hleast := isLeast_append hq.least it.lapsed
    rw [List.cons_append, ← List.map_singleton, ← List.map_append] at hleast
    rw [update_waited q hwaited]
    refine ⟨by rwa [hwaits], hgreatest, ?_, ?_⟩
    · rw [hwaits, List.map_append, List.sum_append, ← hq.queuetime, List.map_singleton,
        List.sum_singleton]
    · rw [hwaits, List.length_append, List.length_singleton, hq.numwaits]
      rfl
  · have hwaits : waits (iterations ++ [it]) = waits iterations := by
      rw [waits_append, if_neg hwaited, List.append_nil]
    rw [update_not_waited q hwaited]
    exact ⟨hwaits ▸ hq.least, hgreatest, hwaits ▸ hq.queuetime, hwaits ▸ hq.numwaits⟩

theorem loop_gathered (iterations : List Iteration) :
    Gathered iterations (iterations.foldl QueueStats.update ⟨9999999, 0, 0, 0⟩) := by
  induction iterations using List.reverseRecOn with
  | nil =>
    refine ⟨?_, ?_, rfl, rfl⟩
    · simp [waits]
    · simp
  | append_singleton iterations it ih =>
    rw [List.foldl_append]
    exact ih.update it

end Loop

/-! ## What is printed -/

section Times

variable {iterations : List Iteration} {it : Iteration} {q : QueueStats}

/-- The difference of the microseconds misses the seconds in between. -/
theorem duration_eq (h : it.Valid) : 0 ≤ it.duration ∧ it.lapsed < 1000000 ∧
    ∃ k : Int, it.duration = it.lapsed + 1000000 * k ∧ 0 ≤ k ∧
      (k = 0 ↔ it.after.tvSec = it.before.tvSec) := by
  obtain ⟨hbefore, hafter, hle⟩ := h
  have hsec := Timeval.tvSec_le hle
  have hmicros := Timeval.micros_le hbefore hafter hle
  obtain ⟨hbefore, -⟩ := hbefore
  obtain ⟨-, hafter⟩ := hafter
  unfold Iteration.duration Iteration.lapsed
  unfold Timeval.micros at hmicros ⊢
  refine ⟨by omega, by omega, it.after.tvSec - it.before.tvSec, by omega, by omega, by omega⟩

theorem mem_waits : it ∈ waits iterations ↔ it ∈ iterations ∧ it.Waited := by
  rw [waits, List.mem_filter, decide_eq_true_iff]

/-- The value `queuemin` starts from is greater than every difference. -/
theorem Gathered.isLeast (hq : Gathered iterations q) (hvalid : ∀ it ∈ iterations, it.Valid)
    (hwaits : waits iterations ≠ []) :
    IsLeast {x | x ∈ (waits iterations).map Iteration.lapsed} q.queuemin := by
  obtain ⟨hmem, hlower⟩ := hq.least
  refine ⟨?_, fun x hx => hlower (List.mem_cons_of_mem _ hx)⟩
  obtain hstart | hmem := List.mem_cons.mp hmem
  · obtain ⟨w, hw⟩ := List.exists_mem_of_ne_nil _ hwaits
    have hle := hlower (List.mem_cons_of_mem _ (List.mem_map_of_mem hw))
    obtain ⟨-, hlt, -⟩ := duration_eq (hvalid w (mem_waits.mp hw).1)
    omega
  · exact hmem

theorem Gathered.lapsed_le (hq : Gathered iterations q) (hit : it ∈ iterations) :
    it.lapsed ≤ q.queuemax :=
  hq.greatest.2 (List.mem_cons_of_mem _ (List.mem_map_of_mem hit))

theorem Gathered.queuemax_lt (hq : Gathered iterations q)
    (hvalid : ∀ it ∈ iterations, it.Valid) : q.queuemax < 1000000 := by
  obtain hstart | hmem := List.mem_cons.mp hq.greatest.1
  · omega
  · obtain ⟨it, hit, hlapsed⟩ := List.mem_map.mp hmem
    obtain ⟨-, hlt, -⟩ := duration_eq (hvalid it hit)
    omega

theorem Gathered.times (hq : Gathered iterations q) : q.times =
    if waits iterations = [] then ⟨0, 0, 0⟩
    else ⟨q.queuemin, q.queuetime.tdiv q.numwaits, q.queuemax⟩ := by
  have hnumwaits := hq.numwaits
  unfold QueueStats.times
  by_cases hwaits : waits iterations = []
  · have hzero : q.numwaits = 0 := by
      rw [hnumwaits, hwaits]
      rfl
    rw [if_neg (by omega), if_pos hzero, if_pos hwaits]
  · have hpos := List.length_pos_of_ne_nil hwaits
    rw [if_pos (by omega), if_neg hwaits]

/-- A wait into a later second is either longer than every difference, so that it is not the
maximum, or its difference is negative, so that it is the minimum. -/
theorem Gathered.same_second (hq : Gathered iterations q) (hvalid : ∀ it ∈ iterations, it.Valid)
    (hleast : ∃ w ∈ waits iterations, w.duration = q.queuemin)
    (hgreatest : ∀ w ∈ waits iterations, w.duration ≤ q.queuemax) :
    ∀ w ∈ waits iterations, w.duration = w.lapsed ∧ w.after.tvSec = w.before.tvSec := by
  intro w hw
  obtain ⟨v, hv, hmin⟩ := hleast
  obtain ⟨hv0, -⟩ := duration_eq (hvalid v (mem_waits.mp hv).1)
  obtain ⟨-, -, k, hduration, hk, hsame⟩ := duration_eq (hvalid w (mem_waits.mp hw).1)
  have hmax := hgreatest w hw
  have hlt := hq.queuemax_lt hvalid
  have hlapsed := (hq.isLeast hvalid (List.ne_nil_of_mem hw)).2 (List.mem_map_of_mem hw)
  have hzero : k = 0 := by omega
  exact ⟨by omega, hsame.mp hzero⟩

theorem mem_durations {x : Int} :
    x ∈ (waits iterations).map Iteration.duration ↔ ∃ w ∈ waits iterations, w.duration = x :=
  List.mem_map

theorem Gathered.measurable (hq : Gathered iterations q) (hvalid : ∀ it ∈ iterations, it.Valid)
    (hleast : IsLeast {d | d ∈ (waits iterations).map Iteration.duration} q.queuemin)
    (hgreatest : IsGreatest {d | d ∈ (waits iterations).map Iteration.duration} q.queuemax) :
    Measurable iterations := by
  have hsame := hq.same_second hvalid (mem_durations.mp hleast.1)
    fun w hw => hgreatest.2 (List.mem_map_of_mem hw)
  refine ⟨fun w hw => (hsame w hw).2, fun _ it hit => ?_⟩
  obtain ⟨w, hw, hmax⟩ := mem_durations.mp hgreatest.1
  have hle := hq.lapsed_le hit
  have hlapsed := (hsame w hw).1
  exact ⟨w, hw, show it.lapsed ≤ w.lapsed by omega⟩

theorem Measurable.durations_eq (hm : Measurable iterations)
    (hvalid : ∀ it ∈ iterations, it.Valid) :
    (waits iterations).map Iteration.duration = (waits iterations).map Iteration.lapsed := by
  apply List.map_congr_left
  intro w hw
  obtain ⟨-, -, k, hduration, -, hsame⟩ := duration_eq (hvalid w (mem_waits.mp hw).1)
  have hzero := hsame.mpr (hm.1 w hw)
  omega

/-- The maximum over all iterations is one of the waits. -/
theorem Gathered.isGreatest (hq : Gathered iterations q) (hvalid : ∀ it ∈ iterations, it.Valid)
    (hm : Measurable iterations) (hwaits : waits iterations ≠ []) :
    IsGreatest {x | x ∈ (waits iterations).map Iteration.lapsed} q.queuemax := by
  have hupper : ∀ w ∈ waits iterations, w.lapsed ≤ q.queuemax :=
    fun w hw => hq.lapsed_le (mem_waits.mp hw).1
  have hreached : ∃ w ∈ waits iterations, q.queuemax ≤ w.lapsed := by
    obtain hstart | hmem := List.mem_cons.mp hq.greatest.1
    · obtain ⟨w, hw⟩ := List.exists_mem_of_ne_nil _ hwaits
      have hlapsed := List.map_eq_map_iff.mp (hm.durations_eq hvalid) w hw
      obtain ⟨hnonneg, -⟩ := duration_eq (hvalid w (mem_waits.mp hw).1)
      exact ⟨w, hw, by omega⟩
    · obtain ⟨it, hit, hmax⟩ := List.mem_map.mp hmem
      obtain ⟨w, hw, hle⟩ := hm.2 hwaits it hit
      exact ⟨w, hw, hmax ▸ hle⟩
  obtain ⟨w, hw, hle⟩ := hreached
  refine ⟨List.mem_map.mpr ⟨w, hw, le_antisymm (hupper w hw) hle⟩, ?_⟩
  intro x hx
  obtain ⟨v, hv, rfl⟩ := List.mem_map.mp hx
  exact hupper v hv

theorem Gathered.avgqueue (hq : Gathered iterations q) (hvalid : ∀ it ∈ iterations, it.Valid)
    (hm : Measurable iterations) : q.queuetime.tdiv q.numwaits =
      ((waits iterations).map Iteration.duration).sum /
        ((waits iterations).map Iteration.duration).length := by
  have hnonneg : 0 ≤ ((waits iterations).map Iteration.duration).sum := by
    apply List.sum_nonneg
    intro d hd
    obtain ⟨w, hw, rfl⟩ := List.mem_map.mp hd
    exact (duration_eq (hvalid w (mem_waits.mp hw).1)).1
  rw [hq.queuetime, ← hm.durations_eq hvalid, hq.numwaits, List.length_map,
    Int.tdiv_eq_ediv_of_nonneg hnonneg]

/-- The printed minimum, maximum and average describe the waits exactly when no wait crosses into
another second and no other iteration outdoes the waits. -/
theorem queue_times_iff (hvalid : ∀ it ∈ iterations, it.Valid) :
    Describes (individual iterations) ((waits iterations).map Iteration.duration) ↔
      Measurable iterations := by
  have hq := loop_gathered iterations
  rw [individual, hq.times, Describes]
  generalize iterations.foldl QueueStats.update ⟨9999999, 0, 0, 0⟩ = q at hq
  by_cases hwaits : waits iterations = []
  · rw [if_pos hwaits, if_pos (List.map_eq_nil_iff.mpr hwaits)]
    refine ⟨fun _ => ⟨fun w hw => ?_, fun h => absurd hwaits h⟩, fun _ => rfl⟩
    rw [hwaits] at hw
    exact absurd hw List.not_mem_nil
  · rw [if_neg hwaits, if_neg fun h => hwaits (List.map_eq_nil_iff.mp h)]
    constructor
    · rintro ⟨hleast, hgreatest, -⟩
      exact hq.measurable hvalid hleast hgreatest
    · intro hm
      refine ⟨?_, ?_, hq.avgqueue hvalid hm⟩
      · rw [hm.durations_eq hvalid]
        exact hq.isLeast hvalid hwaits
      · rw [hm.durations_eq hvalid]
        exact hq.isGreatest hvalid hm hwaits

end Times

/-- Two waits, and in between a free bathroom. -/
def threeVisits : List Iteration :=
  [⟨⟨0, 10⟩, ⟨0, 40⟩, 1⟩, ⟨⟨1, 5⟩, ⟨1, 6⟩, 0⟩, ⟨⟨2, 0⟩, ⟨2, 21⟩, 1⟩]

theorem queue_times_three : Describes ⟨21, 25, 30⟩ [30, 21] := by
  have hvalid : ∀ it ∈ threeVisits, it.Valid := by decide
  exact (queue_times_iff hvalid).mpr ⟨by decide, by decide⟩

/-- A wait of five microseconds during which a second ends. -/
def lateVisit : List Iteration := [⟨⟨0, 999999⟩, ⟨1, 4⟩, 1⟩]

theorem queue_times_negative : (∀ it ∈ lateVisit, it.Valid) ∧
    individual lateVisit = ⟨-999995, -999995, 0⟩ ∧
    (waits lateVisit).map Iteration.duration = [5] ∧
    ¬ Describes (individual lateVisit) ((waits lateVisit).map Iteration.duration) := by
  have hprinted : individual lateVisit = ⟨-999995, -999995, 0⟩ := by decide
  have hdurations : (waits lateVisit).map Iteration.duration = [5] := by decide
  refine ⟨by decide, hprinted, hdurations, ?_⟩
  rw [hprinted, hdurations, Describes, if_neg (by decide)]
  rintro ⟨-, -, havg⟩
  exact absurd havg (by decide)

end Cs3013.Bathroom
