import Cs3013.Library.Slots
import Cs3013.Library.Transition
import Mathlib.Algebra.GroupWithZero.Nat

/-!
# The array of background processes

`running` of `mc2.c` is meant to be a queue in an array: the processes in the order of their
launch from index 0 on, and zeros behind them. `addrunning` fills the first zero.
`removebackground` looks for the zero it has made, but ends up with the last zero of the array;
that is the right one only when the last slot is free afterwards and the process removed was the
last of the queue.
-/
namespace Cs3013.Shell

open Function Cs3013.Library.Slots Cs3013.Library.Transition

/-- MAXBACK slots; 0 stands for a free one. -/
abbrev Running := Fin 20 → Int

scoped instance twenty_neZero : NeZero 20 := ⟨by decide⟩

/-- The index of the slot, or -1, and the array afterwards. -/
def addrunning (pid : Int) (running : Running) : Int × Running :=
  match Fin.find? fun i => decide (running i = 0) with
  | some i => ((i.val : Int), update running i pid)
  | none => (-1, running)

/-- The first loop of `removebackground`. -/
def cleared (pid : Int) (running : Running) : Running :=
  fun i => if running i = pid then 0 else running i

/-- `index` after the second loop, which assigns it at every zero and does not stop at the first
one; `none` where it is never assigned. -/
def zeroIndex (running : Running) : Option (Fin 20) := Fin.findRev? fun i => decide (running i = 0)

/-- `none` where the uninitialised `index` is read. -/
def removebackground (pid : Int) (running : Running) : Option Running :=
  (zeroIndex (cleared pid running)).map fun index =>
    let running := cleared pid running
    shift (n := 19) index.val (if index = 0 then update running 0 (running 1) else running)

def emptybackground (running : Running) : Int := if ∃ i, running i > 0 then 0 else 1

section Loops

variable {pid : Int} {running r : Running} {i k : Fin 20}

theorem addrunning_cases (pid : Int) (running : Running) :
    (∃ i, running i = 0 ∧ (∀ j < i, running j ≠ 0) ∧
      addrunning pid running = ((i.val : Int), update running i pid)) ∨
    (∀ i, running i ≠ 0) ∧ addrunning pid running = (-1, running) := by
  unfold addrunning
  cases hfind : Fin.find? fun i => decide (running i = 0) with
  | some i =>
    obtain ⟨hzero, hbefore⟩ := Fin.find?_eq_some_iff.mp hfind
    exact .inl ⟨i, of_decide_eq_true hzero, fun j hj => of_decide_eq_false (hbefore j hj), rfl⟩
  | none => exact .inr ⟨fun i => of_decide_eq_false (Fin.find?_eq_none_iff.mp hfind i), rfl⟩

/-- A cell holds what it held, or the process added. -/
theorem addrunning_cell (pid : Int) (running : Running) (i : Fin 20) :
    (addrunning pid running).2 i = pid ∨ (addrunning pid running).2 i = running i := by
  obtain ⟨k, -, -, hadd⟩ | ⟨-, hadd⟩ := addrunning_cases pid running
  · rw [hadd]
    by_cases hik : i = k
    · subst hik
      exact .inl (update_self i pid running)
    · exact .inr (update_of_ne hik pid running)
  · rw [hadd]
    exact .inr rfl

theorem zeroIndex_eq_some :
    zeroIndex running = some k ↔ running k = 0 ∧ ∀ j, k < j → running j ≠ 0 := by
  simp [zeroIndex]

theorem zeroIndex_eq_none : zeroIndex running = none ↔ ∀ i, running i ≠ 0 := by
  simp [zeroIndex]

theorem cleared_eq_iff {x : Int} (hx : x ≠ 0) :
    cleared pid running i = x ↔ running i = x ∧ x ≠ pid := by
  unfold cleared
  split_ifs with hi
  · exact ⟨fun h => absurd h.symm hx, fun h => absurd (h.1.symm.trans hi) h.2⟩
  · exact ⟨fun h => ⟨h, fun hpid => hi (h.trans hpid)⟩, fun h => h.1⟩

theorem cleared_eq_zero_iff : cleared pid running i = 0 ↔ running i = 0 ∨ running i = pid := by
  unfold cleared
  split_ifs with hi
  · exact ⟨fun _ => .inr hi, fun _ => rfl⟩
  · exact ⟨.inl, fun h => h.resolve_right hi⟩

/-- The assignment before the third loop is the first one of that loop. -/
theorem removebackground_eq (pid : Int) (running : Running) :
    removebackground pid running =
      (zeroIndex (cleared pid running)).map fun k =>
        shift (n := 19) k.val (cleared pid running) := by
  unfold removebackground
  congr 1
  funext k
  by_cases hk : k = 0
  · subst hk
    show shift (n := 19) 0 (update _ 0 _) = shift (n := 19) 0 _
    funext i
    refine Fin.lastCases ?_ (fun j => ?_) i
    · rw [shift_last, shift_last]
      rfl
    · rw [shift_castSucc, shift_castSucc, if_pos (Nat.zero_le _), if_pos (Nat.zero_le _),
        update_of_ne (Fin.succ_ne_zero j)]
  · exact congrArg (shift (n := 19) k.val) (if_neg hk)

/-- With a free last slot nothing is moved. -/
theorem removebackground_free (h : cleared pid running 19 = 0) :
    removebackground pid running = some (cleared pid running) := by
  have hindex : zeroIndex (cleared pid running) = some 19 :=
    zeroIndex_eq_some.mpr ⟨h, fun j hj => absurd j.isLt (by omega)⟩
  rw [removebackground_eq, hindex]
  exact congrArg some shift_self

/-- Without a free slot `index` is not initialised. -/
theorem removebackground_full (h : ∀ i, cleared pid running i ≠ 0) :
    removebackground pid running = none := by
  rw [removebackground_eq, zeroIndex_eq_none.mpr h]
  rfl

/-- A process in the last slot stands in the last two slots afterwards. -/
theorem removebackground_twice (h : cleared pid running 19 ≠ 0)
    (hr : removebackground pid running = some r) : r 18 = cleared pid running 19 ∧ r 18 = r 19 := by
  rw [removebackground_eq] at hr
  obtain ⟨k, hk, rfl⟩ := Option.map_eq_some_iff.mp hr
  obtain ⟨hzero, -⟩ := zeroIndex_eq_some.mp hk
  have hlt : k.val ≤ 18 := by
    by_contra hge
    have hlast : k = 19 := Fin.ext (by have := k.isLt; simp; omega)
    exact h (hlast ▸ hzero)
  have hcopied : shift (n := 19) k (cleared pid running) 18 = cleared pid running 19 :=
    (shift_castSucc (n := 19) k (18 : Fin 19)).trans (if_pos hlt)
  exact ⟨hcopied, hcopied.trans (shift_last (n := 19) k).symm⟩

/-- No process appears that was not there, and the removed one is gone. -/
theorem mem_of_removebackground (hr : removebackground pid running = some r) (hi : r i ≠ 0) :
    r i ≠ pid ∧ ∃ j, running j = r i := by
  rw [removebackground_eq] at hr
  obtain ⟨k, -, rfl⟩ := Option.map_eq_some_iff.mp hr
  have hcell : ∃ j, cleared pid running j = shift (n := 19) k (cleared pid running) i := by
    refine Fin.lastCases (n := 19) ?_ (fun j => ?_) i
    · exact ⟨19, (shift_last (n := 19) k).symm⟩
    · by_cases hj : k.val ≤ j.val
      · exact ⟨j.succ, ((shift_castSucc (n := 19) k j).trans (if_pos hj)).symm⟩
      · exact ⟨j.castSucc, ((shift_castSucc (n := 19) k j).trans (if_neg hj)).symm⟩
  obtain ⟨j, hj⟩ := hcell
  obtain ⟨hrunning, hpid⟩ := (cleared_eq_iff hi).mp hj
  exact ⟨hpid, j, hrunning⟩

/-- No other process is lost. -/
theorem removebackground_keeps (hr : removebackground pid running = some r) {x : Int} (hx : x ≠ 0)
    (hpid : x ≠ pid) (h : ∃ j, running j = x) : ∃ i, r i = x := by
  obtain ⟨j, hj⟩ := h
  have hj := (cleared_eq_iff hx).mpr ⟨hj, hpid⟩
  rw [removebackground_eq] at hr
  obtain ⟨k, hk, rfl⟩ := Option.map_eq_some_iff.mp hr
  obtain ⟨hzero, -⟩ := zeroIndex_eq_some.mp hk
  rcases Nat.lt_trichotomy j.val k.val with hlt | heq | hgt
  · exact ⟨j, (shift_of_lt (n := 19) hlt).trans hj⟩
  · obtain rfl := Fin.ext heq
    exact absurd (hj.symm.trans hzero) hx
  · obtain ⟨i, rfl⟩ := Fin.exists_succ_eq.mpr (Fin.ne_of_gt (Nat.zero_lt_of_lt hgt))
    refine ⟨(i : Fin 19).castSucc, ?_⟩
    rw [shift_castSucc (n := 19), if_pos (by simpa using Nat.le_of_lt_succ hgt)]
    exact hj

end Loops

end Cs3013.Shell
