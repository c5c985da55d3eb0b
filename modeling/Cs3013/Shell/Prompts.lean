import Cs3013.Shell.Reaping

/-!
# Who reads the menu

Nothing behind `execvp` ends the process that `run` has forked, and nothing behind `run` ends the
process of a background command. As long as no process comes that far, only the shell itself calls
`mainprocess`.
-/
namespace Cs3013.Shell

open Function Cs3013.Library.Processes Cs3013.Library.Transition

/-- Inside a call of `run`. -/
def Place.InRun : Place → Prop
  | .run _ => True
  | .execvp _ => True
  | .wait _ => True
  | _ => False

/-- No `execvp` fails, and no process but the shell comes back from the wait of `run`, so no
command in the background ends. -/
def StaysInRun (shell : Int) : Event Action → Prop
  | .act _ (.execvp found) => found = true
  | .act p (.wait _) => p = shell
  | _ => True

instance (shell : Int) (e : Event Action) : Decidable (StaysInRun shell e) :=
  match e with
  | .act _ (.execvp _) | .act _ (.wait _) => inferInstanceAs (Decidable (_ = _))
  | .act _ (.poll _) | .act _ (.input _) | .act _ (.fork _) | .act _ .loop | .act _ .leave
  | .terminate _ => inferInstanceAs (Decidable True)

/-- Every process but the shell is inside `run`, or has replaced its program. -/
def OneShell (shell : Int) (t : Table Process) : Prop :=
  ∀ p place g, p ≠ shell → t.status p = .active (.shell place g) → place.InRun

section Steps

variable {shell p : Int} {t u : Table Process} {e : Event Action} {a b b' : Process} {l : Action}
  {x : Call Process} {place place' : Place} {g g' : Globals} {c : Int}

/-- A new process begins inside `run`. -/
theorem move_child (h : Move a l (.fork c b (.shell place g))) : place.InRun := by
  cases h <;> trivial

/-- A process inside `run` stays there. -/
theorem move_inRun (h : Move (.shell place g) l x) (hplace : place.InRun)
    (hok : StaysInRun shell (.act p l)) (hp : p ≠ shell) (hnext : .shell place' g' = x.next) :
    place'.InRun := by
  cases h with
  | run =>
    cases hnext
    trivial
  | execvp => cases hnext
  | notFound => cases hok
  | wait => exact absurd hok hp
  | noChild => exact absurd hok hp
  | _ => exact hplace.elim

theorem OneShell.step (hs : OneShell shell t) (hok : StaysInRun shell e)
    (h : (mc2 shell).step t e u) : OneShell shell u := by
  intro q place g hq hu
  rcases (step_change h q).active hu with hsame | hacts | hnew
  · exact hs q place g hq hsame.1
  · obtain ⟨a, l, x, rfl, ha, hx, -, hnext⟩ := hacts
    cases a with
    | shell place' g' => exact move_inRun (move_of_code hx) (hs q place' g' hq ha) hok hq hnext
    | program args => cases move_of_code hx
  · obtain ⟨p, a, l, b', -, -, hx, -⟩ := hnew
    exact move_child (move_of_code hx)

end Steps

section Runs

variable {shell p : Int} {t : Table Process} {h : List (Event Action)} {place : Place}
  {g : Globals}

theorem oneShell_single (shell : Int) (a : Process) : OneShell shell (.single shell a) := by
  intro p place g hp hstatus
  rw [Table.single_absent hp] at hstatus
  cases hstatus

/-- In every run in which no `execvp` fails and no command in the background ends, no process but
the shell calls `mainprocess` or is at its prompt. -/
theorem only_shell_prompts (hrun : (mc2 shell).RunIf (fun _ e => StaysInRun shell e) h t)
    (hp : p ≠ shell) (hplace : t.status p = .active (.shell place g)) :
    place ≠ .mainprocess ∧ place ≠ .menu := by
  have hone : OneShell shell t := by
    refine hrun.stateInvariant ?_ fun _ _ _ hs hok hstep => hs.step hok hstep
    rintro _ ⟨-, commands, -, rfl⟩
    exact oneShell_single shell _
  have hin := hone p place g hp hplace
  constructor
  · rintro rfl
    exact hin
  · rintro rfl
    exact hin

end Runs

/-- A command is added and started, in the foreground or in the background. -/
def started (line : List Char) : List (Event Action) :=
  [.act 1 (.poll none), .act 1 (.input ⟨some 97, line, [], []⟩), .act 1 .loop,
    .act 1 (.poll none), .act 1 (choose 51), .act 1 (.fork 2)]

theorem started_forked : ∃ t g,
    (mc2 1).RunIf (fun _ e => StaysInRun 1 e) (started ['l', 's', ' ', '/', '\n']).reverse t ∧
    t.status 1 = .active (.shell (.wait 2) g) ∧
      (shellOf t 2).any (fun x => x.1 = .execvp [['l', 's'], ['/']]) = true :=
  exists_run (fun _ e => StaysInRun 1 e) (by decide +kernel)

theorem only_shell_prompts_started : ∃ h t place g,
    (mc2 1).RunIf (fun _ e => StaysInRun 1 e) h t ∧ t.status 2 = .active (.shell place g) ∧
      place ≠ .mainprocess ∧ place ≠ .menu := by
  obtain ⟨t, -, hrun, -, hchild⟩ := started_forked
  obtain ⟨⟨place, g⟩, hat, -⟩ := (Option.any_eq_true _ _).mp hchild
  have hplace := status_of_shellOf hat
  exact ⟨_, t, place, g, hrun, hplace, only_shell_prompts hrun (by decide) hplace⟩

/-- A command in the foreground whose program does not exist. -/
def missingProgram : List (Event Action) :=
  started ['n', 'o', ' ', 'x', '\n'] ++ [.act 2 (.execvp false), .act 2 .loop]

/-- A command in the background that ends. -/
def endedBackground : List (Event Action) :=
  started ['l', 's', ' ', '/', ' ', '&', '\n'] ++ [.act 2 (.fork 3), .act 3 (.execvp true),
    .terminate 3, .act 2 (.wait (some 3)), .act 2 .loop]

theorem missingProgram_end : ∃ t g, (mc2 1).Run missingProgram.reverse t ∧
    t.status 1 = .active (.shell (.wait 2) g) ∧
      (shellOf t 2).any (fun x => x.1 = .mainprocess) = true :=
  exists_run (fun _ _ => True) (by decide +kernel)

theorem endedBackground_end : ∃ t g, (mc2 1).Run endedBackground.reverse t ∧
    t.status 1 = .active (.shell (.returned none) g) ∧
      (shellOf t 2).any (fun x => x.1 = .mainprocess) = true :=
  exists_run (fun _ _ => True) (by decide +kernel)

theorem mainprocess_of_any {t : Table Process} {p : Int}
    (h : (shellOf t p).any (fun x => x.1 = .mainprocess) = true) :
    ∃ g, t.status p = .active (.shell .mainprocess g) := by
  obtain ⟨⟨place, g⟩, hat, hplace⟩ := (Option.any_eq_true _ _).mp h
  obtain rfl : place = .mainprocess := of_decide_eq_true hplace
  exact ⟨g, status_of_shellOf hat⟩

/-- The process of a command that does not exist becomes a second shell, and so does the process of
a background command when the command has ended. -/
theorem other_shells :
    (∃ t g, (mc2 1).Run missingProgram.reverse t ∧
      t.status 2 = .active (.shell .mainprocess g)) ∧
    ∃ t g, (mc2 1).Run endedBackground.reverse t ∧
      t.status 2 = .active (.shell .mainprocess g) := by
  obtain ⟨t, -, hrun, -, hat⟩ := missingProgram_end
  obtain ⟨t', -, hrun', -, hat'⟩ := endedBackground_end
  obtain ⟨g, hg⟩ := mainprocess_of_any hat
  obtain ⟨g', hg'⟩ := mainprocess_of_any hat'
  exact ⟨⟨t, g, hrun, hg⟩, t', g', hrun', hg'⟩

end Cs3013.Shell
