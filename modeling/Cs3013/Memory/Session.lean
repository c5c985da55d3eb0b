import Cs3013.Memory.FrameRuns
import Cs3013.Memory.Reader

/-!
# Sessions with memsim

`main` reads its input without a look at the memory: a text amounts to a list of commands that are
carried out one after the other, and to whether a null pointer ends them. So no text leads the
simulation anywhere but along its own steps, and the text of a list of commands leads it along
these commands.
-/
namespace Cs3013.Memory

open Cs3013.Library.Faulting Cs3013.Library.CText Cs3013.Library.Transition

/-- The commands one after the other. -/
def execs : List Cmd → M Unit
  | [] => return ()
  | c :: cmds => do
    let _ ← exec c
    execs cmds

/-! ## Any text -/

section Texts

variable {s u : Machine} {h : List Event}

theorem execs_cons (c : Cmd) (cmds : List Cmd) :
    execs (c :: cmds) = exec c >>= fun _ => execs cmds := rfl

theorem execs_concat (cmds : List Cmd) (c : Cmd) :
    execs (cmds ++ [c]) = execs cmds >>= fun _ => exec c >>= fun _ => pure () := by
  induction cmds with
  | nil => exact (pure_bind _ _).symm
  | cons d cmds ih => rw [List.cons_append, execs_cons, execs_cons, ih, bind_assoc]

/-- What the lines say does not depend on the memory. -/
theorem instructions_eq (choice : UInt8) (strs : List (List Char)) :
    ∃ (cmds : List Cmd) (ends : Bool), instructions choice strs =
      execs cmds >>= fun _ => if ends then pure () else throw .token := by
  induction strs generalizing choice with
  | nil => exact ⟨[], true, rfl⟩
  | cons str strs ih =>
    cases hturn : turn choice str with
    | none =>
      refine ⟨[], false, ?_⟩
      rw [instructions, hturn]
      rfl
    | some t =>
      obtain ⟨cmds, ends, hrest⟩ := ih t.choice
      rw [instructions, hturn]
      dsimp only
      rw [hrest]
      cases hissued : t.issued with
      | none => exact ⟨cmds, ends, rfl⟩
      | some c =>
        refine ⟨c :: cmds, ends, ?_⟩
        rw [execs_cons, issue, bind_assoc, bind_assoc]
        rfl

/-- Commands are steps, up to the first fault. -/
theorem execs_steps (cmds : List Cmd) (s : Machine) : wp (execs cmds)
    (fun _ u => ∃ h, memsim.Steps (fun _ _ => True) s h u ∧ h.map Event.cmd = cmds.reverse)
    (fun e u => ∃ h t c, memsim.Steps (fun _ _ => True) s h t ∧ (exec c).run t = .error e u)
    s := by
  induction cmds generalizing s with
  | nil => exact ⟨[], .refl, rfl⟩
  | cons c cmds ih =>
    rw [execs_cons, wp_bind]
    unfold wp
    cases hexec : (exec c).run s with
    | error e u => exact ⟨[], s, c, .refl, hexec⟩
    | ok ret t =>
      have hstep : memsim.step s ⟨c, ret, t.out⟩ t := ⟨hexec, rfl⟩
      show wp _ _ _ t
      apply wp_mono (ih t)
      · intro _ u hpost
        obtain ⟨h, hsteps, hcmds⟩ := hpost
        refine ⟨h ++ [⟨c, ret, t.out⟩], .head trivial hstep hsteps, ?_⟩
        rw [List.map_append, hcmds, List.reverse_cons]
        rfl
      · intro e u hpost
        obtain ⟨h, v, d, hsteps, hfault⟩ := hpost
        exact ⟨h ++ [⟨c, ret, t.out⟩], v, d, .head trivial hstep hsteps, hfault⟩

theorem execs_of_steps (hsteps : memsim.Steps (fun _ _ => True) s h u) :
    (execs (h.map Event.cmd).reverse).run s = .ok () u := by
  induction hsteps with
  | refl => rfl
  | tail _ _ hstep ih =>
    have hexec : (exec _).run _ = _ := hstep.1
    rw [List.map_cons, List.reverse_cons, execs_concat, bind_of_ok ih, bind_of_ok hexec]
    rfl

/-- Whatever is typed, `main` ends in a state that commands lead to, or at a fault of a command in
such a state, or at a null token. The loops of `freespace` never run on. -/
theorem session_follows_memsim (stdin : List Char) (stack : List Page) : wp (main stdin)
    (fun _ u => ∃ h, memsim.Run h u)
    (fun e u => e ≠ .loop ∧ ∃ h t, memsim.Run h t ∧
      (e = .token ∧ u = t ∨ ∃ c, (exec c).run t = .error e u)) (startup stack) := by
  have hrun : ∀ {h t}, memsim.Steps (fun _ _ => True) (startup stack) h t → memsim.Run h t :=
    fun hsteps => ⟨startup stack, ⟨stack, rfl⟩, hsteps⟩
  obtain ⟨cmds, ends, hmain⟩ := instructions_eq 255 (strings stdin)
  rw [main, hmain, wp_bind]
  apply wp_mono (execs_steps cmds (startup stack))
  · intro _ u hpost
    obtain ⟨h, hsteps, -⟩ := hpost
    cases ends with
    | true => exact ⟨h, hrun hsteps⟩
    | false => exact ⟨by decide, h, u, hrun hsteps, .inl ⟨rfl, rfl⟩⟩
  · intro e u hpost
    obtain ⟨h, t, c, hsteps, hfault⟩ := hpost
    refine ⟨?_, h, t, hrun hsteps, .inr ⟨c, hfault⟩⟩
    intro hloop
    rw [hloop] at hfault
    exact exec_ne_loop (hrun hsteps) c u hfault

end Texts

/-! ## The text of commands -/

/-- The line `pid,op,vaddr,val` of a command, without the newline. -/
def Cmd.line (c : Cmd) : List Char :=
  decimal c.pid.val ++ ',' :: ([c.letter] ++ ',' :: (decimal c.vaddr.val ++ ',' ::
    decimal c.val.toNat))

def script (cmds : List Cmd) : List Char := cmds.flatMap fun c => c.line ++ ['\n']

section Scripts

variable (c : Cmd)

theorem number_decimal (n : Nat) : Number (decimal n) n :=
  ⟨⟨decimal_ne_nil n, fun _ hc => isDigit_of_mem_decimal hc⟩, natOfDigits_decimal n⟩

theorem letter_ne {d : Char} (hd : d ∉ ['m', 's', 'l']) : d ∉ [c.letter] := by
  cases c <;> simp_all [Cmd.letter]

theorem line_form : Form c.line c (decimal c.pid.val) [c.letter] (decimal c.vaddr.val)
    (decimal c.val.toNat) :=
  ⟨rfl, number_decimal _, rfl, letter_ne c (by decide), number_decimal _, number_decimal _⟩

theorem line_newline : '\n' ∉ c.line := by
  have hdigits : ∀ n, '\n' ∉ decimal n := not_mem_decimal (by decide)
  simp only [Cmd.line, List.mem_append, List.mem_cons, hdigits]
  have hletter : '\n' ∉ [c.letter] := letter_ne c (by decide)
  simpa using hletter

theorem line_length : c.line.length ≤ 18 := by
  have hpid : (decimal c.pid.val).length ≤ 1 := length_decimal_le (by decide) (by omega)
  have hvaddr : (decimal c.vaddr.val).length ≤ 2 := length_decimal_le (by decide) (by omega)
  have hval : (decimal c.val.toNat).length ≤ 3 := by
    have := c.val.toNat_lt
    exact length_decimal_le (by decide) (by omega)
  simp only [Cmd.line, List.length_append, List.length_cons, List.length_nil]
  omega

/-- The digit of the process is all that `main` reads of it. -/
theorem firstByte_decimal (p : Fin 4) : (firstByte (decimal p.val) - 48).toNat = p.val := by
  revert p
  decide

theorem line_issued (choice : UInt8) :
    ∃ t, turn choice (c.line ++ ['\n']) = some t ∧ t.issued = some c := by
  refine ⟨_, (line_form c).turn (letter_ne c (by decide)) (line_newline c), ?_⟩
  exact obey_issues (firstByte_decimal c.pid) (by rw [UInt8.toNat_ofNat']; omega) rfl

theorem instructions_script (choice : UInt8) (cmds : List Cmd) :
    instructions choice ((cmds.map Cmd.line).map (· ++ ['\n'])) = execs cmds := by
  induction cmds generalizing choice with
  | nil => rfl
  | cons c cmds ih =>
    obtain ⟨t, hturn, hissued⟩ := line_issued c choice
    rw [List.map_cons, List.map_cons, instructions, hturn]
    dsimp only
    rw [hissued, ih, execs_cons, issue, bind_assoc]
    rfl

/-- The text of a list of commands is read as this list: `main` carries the commands out one after
the other, and it ends in a state if and only if the simulation gets there by them. -/
theorem script_round_trip (cmds : List Cmd) : main (script cmds) = execs cmds ∧
    ∀ stack s, (main (script cmds)).run (startup stack) = .ok () s ↔
      ∃ h, memsim.Steps (fun _ _ => True) (startup stack) h s ∧
        h.map Event.cmd = cmds.reverse := by
  have hmain : main (script cmds) = execs cmds := by
    have hlines : ∀ line ∈ cmds.map Cmd.line, '\n' ∉ line ∧ line.length ≤ 18 := by
      intro line hline
      obtain ⟨c, -, rfl⟩ := List.mem_map.mp hline
      exact ⟨line_newline c, line_length c⟩
    have hscript : script cmds = (cmds.map Cmd.line).flatMap (· ++ ['\n']) := by
      rw [script, List.flatMap_map]
    rw [main, hscript, strings_lines hlines]
    exact instructions_script 255 cmds
  refine ⟨hmain, fun stack s => ?_⟩
  rw [hmain]
  constructor
  · exact fun hrun => wp_ok (execs_steps cmds (startup stack)) hrun
  · intro hexists
    obtain ⟨h, hsteps, hcmds⟩ := hexists
    have hrun := execs_of_steps hsteps
    rwa [hcmds, List.reverse_reverse] at hrun

end Scripts

end Cs3013.Memory
