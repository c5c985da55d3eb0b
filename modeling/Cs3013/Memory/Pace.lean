import Cs3013.Memory.Growth
import Cs3013.Memory.TableMoves

/-!
# The pace of the swap file

A command of a process whose page table is in memory adds one line at most. Only a new page table,
or one that comes back, costs two, and each process makes its page table once. So the lines never
get more than eight ahead of the commands.
-/
namespace Cs3013.Memory

open Function Cs3013.Library.Faulting Cs3013.Library.Transition Machine

/-- The commands with two lines that a process can still cause. -/
def Residency.credit : Residency → Nat
  | .memory => 0
  | .file => 1
  | .unset => 2

def credits (r : Fin 4 → Residency) : Nat :=
  (r 0).credit + (r 1).credit + (r 2).credit + (r 3).credit

section Credits

variable {r : Fin 4 → Residency} {p : Fin 4} {s u : Machine} {l : List Message} {h : List Event}

theorem credits_update (x : Residency) :
    credits (update r p x) + (r p).credit = credits r + x.credit := by
  have hcases : ∀ p : Fin 4, p = 0 ∨ p = 1 ∨ p = 2 ∨ p = 3 := by decide
  rcases hcases p with rfl | rfl | rfl | rfl
  · simp [credits]
    omega
  · simp [credits]
    omega
  · simp [credits]
    omega
  · simp [credits]
    omega

/-- A command that adds two lines uses a credit. -/
theorem Trip.pays (h : Trip s u p l) (hlines : u.linecount ≤ s.linecount + 2)
    (hlogs : Logs s u l) :
    u.linecount + credits u.residency ≤ s.linecount + credits s.residency + 1 := by
  cases h with
  | stays _ hu hfew =>
    have hmore := hlogs.lines
    rw [hu]
    omega
  | returned hin hback =>
    obtain ⟨_, -, hu⟩ := hback
    have hpaid := credits_update (r := s.residency) (p := p) .memory
    have hfile : (s.residency p).credit = 1 := by rw [hin]; rfl
    have hmemory : Residency.memory.credit = 0 := rfl
    rw [hu]
    omega
  | created hin hnew =>
    have hpaid := credits_update (r := s.residency) (p := p) .memory
    have hunset : (s.residency p).credit = 2 := by rw [hin]; rfl
    have hmemory : Residency.memory.credit = 0 := rfl
    cases hnew with
    | room _ hu _ =>
      rw [hu]
      omega
    | displaced q hq _ hu =>
      have hqp : p ≠ q := by
        intro heq
        subst heq
        cases hin.symm.trans hq
      have haway := credits_update (r := s.residency) (p := q) .file
      have hmade := credits_update (r := update s.residency q .file) (p := p) .memory
      have hsame : update s.residency q .file p = s.residency p := update_of_ne hqp _ _
      have hfile : Residency.file.credit = 1 := rfl
      have hold : (s.residency q).credit = 0 := by rw [hq]; rfl
      rw [hsame] at hmade
      rw [hu]
      omega

theorem run_lines (hrun : memsim.Run h s) :
    s.linecount + credits s.residency ≤ h.length + 8 := by
  obtain ⟨s₀, ⟨stack, rfl⟩, hsteps⟩ := hrun
  have hdrift := hsteps.drift (I := fun s => s.DiskOk ∧ s.Stage)
    (φ := fun s => s.linecount + credits s.residency) (a := 0) (b := 1)
    ⟨startup_diskOk stack, .inl (startup_kept stack)⟩ ?_ ?_
  · have hstart : (startup stack).linecount + credits (startup stack).residency = 8 := rfl
    omega
  · intro t e u ht _ hstep
    obtain ⟨hout, hdisk⟩ := step_outcome ht.1 ht.2 hstep
    exact ⟨hdisk, hout.stage⟩
  · intro t e u ht _ hstep
    have hmore := wp_ok (exec_lines ht.1 ht.2 e.cmd) hstep.1
    have htrip := run_trip (s := t.reset) (ht.1.congr rfl rfl rfl) reset_callsOk ht.2 e.cmd
    obtain ⟨hlogs, htrip⟩ := step_enters hstep htrip
    exact htrip.pays hmore hlogs

theorem exec_not_overflow (hrun : memsim.Run h s) (hlength : h.length + 11 < 2 ^ 31) (c : Cmd)
    (u : Machine) : (exec c).run s ≠ .error .overflow u := by
  intro hover
  obtain ⟨hdisk, hstage⟩ := run_stage hrun
  have hstop := exec_lines hdisk hstage c
  unfold wp at hstop
  rw [hover] at hstop
  have hlast := hstop.2 rfl
  have hlines := run_lines hrun
  omega

/-- The file never has more than eight lines more than there were commands. So linecount cannot
overflow in the first 2^31 - 12 commands, and for 247 commands every line number fits the byte of
an entry. -/
theorem swap_file_pace (hrun : memsim.Run h s) : s.linecount ≤ h.length + 8 ∧
    (h.length < 247 → ∀ c : Cmd, Fits s.linecount (c.victims s)) ∧
    (h.length + 11 < 2 ^ 31 → ∀ c u, (exec c).run s ≠ .error .overflow u) := by
  have hlines := run_lines hrun
  refine ⟨by omega, fun hlength c => .inr ?_, exec_not_overflow hrun⟩
  have hvictims := victims_length s c
  omega

/-- After four maps that make four page tables. -/
theorem swap_file_pace_four : ∃ h s, memsim.Run h s ∧ h.map Event.cmd = fourProcesses.reverse ∧
    s.linecount ≤ 12 ∧ Fits s.linecount (Cmd.victims s (.map 0 16 1)) ∧
    ∀ u, (exec (.map 0 16 1)).run s ≠ .error .overflow u := by
  obtain ⟨h, s, hrun, hcmds, -⟩ := fourProcesses_calls
  have hlength : h.length = 4 := by
    rw [← List.length_map Event.cmd, hcmds]
    rfl
  obtain ⟨hlines, hfits, hover⟩ := swap_file_pace hrun
  rw [hlength] at hlines hfits hover
  exact ⟨h, s, hrun, hcmds, hlines, hfits (by decide) _, hover (by decide) _⟩

end Credits

end Cs3013.Memory
