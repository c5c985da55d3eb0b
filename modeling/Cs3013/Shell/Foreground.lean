import Cs3013.Library.Nesting
import Cs3013.Shell.Prompts

/-!
# One process at a time

`run` waits at once for the child it has forked, in all three versions of the shell, and `mc2` forks
elsewhere only for background commands. As long as none of these is started its processes take turns
like those of `mc0` and `mc1`, also when a program is not found and the child goes on as a second
shell.
-/
namespace Cs3013.Shell

open Cs3013.Library.Nesting Cs3013.Library.Processes Cs3013.Library.Transition

/-- The child that a call of `run` waits for. -/
def awaits : Process → Option Int
  | .shell (.wait c) _ => some c
  | _ => none

/-- The process is about to fork for a background command. -/
def startsBackground : Status Process → Bool
  | .active (.shell (.launch _) _) => true
  | _ => false

/-- No background command is started, and no process that waits for a child is ended from
outside. -/
def InForeground (t : Table Process) : Event Action → Prop
  | .act p _ => startsBackground (t.status p) = false
  | .terminate p => Idle awaits (t.status p)

instance (t : Table Process) (e : Event Action) : Decidable (InForeground t e) :=
  match e with
  | .act _ _ => inferInstanceAs (Decidable (_ = _))
  | .terminate _ => inferInstanceAs (Decidable (Idle _ _))

section Foreground

variable {shell p : Int} {t : Table Process} {e : Event Action} {h : List (Event Action)}
  {a : Process} {l : Action} {x : Call Process} {g : Globals}

theorem prompt_idle : awaits g.prompt = none := by
  unfold Globals.prompt
  split_ifs <;> rfl

theorem again_idle : awaits g.again = none := by
  unfold Globals.again
  split_ifs <;> rfl

/-- Every call but the fork for a background command nests. -/
theorem move_nests (h : Move a l x) (hlaunch : startsBackground (.active a) = false) :
    Nests awaits a x := by
  cases h with
  | remove => exact prompt_idle
  | poll => exact ⟨rfl, prompt_idle⟩
  | input hi =>
    refine ⟨rfl, ?_⟩
    obtain ⟨-, rfl | rfl | ⟨args, rfl | rfl⟩⟩ := dispatch_cases hi
    · rfl
    · rfl
    · rfl
    · rfl
  | run => exact ⟨rfl, rfl, rfl⟩
  | launch => cases hlaunch
  | execvp => exact ⟨rfl, rfl⟩
  | notFound => exact ⟨rfl, rfl⟩
  | wait => exact rfl
  | noChild => exact rfl
  | loop => exact ⟨rfl, again_idle⟩
  | await => exact ⟨rfl, rfl⟩
  | leave => exact ⟨rfl, rfl⟩
  | waitpid => exact rfl
  | noneLeft => exact rfl

theorem InForeground.orderly (h : InForeground t e) : Orderly code awaits t e := by
  cases e with
  | act p l =>
    intro a x ha hx
    have hlaunch : startsBackground (t.status p) = false := h
    rw [ha] at hlaunch
    exact move_nests (move_of_code hx) hlaunch
  | terminate p =>
    intro a ha
    have hidle : Idle awaits (t.status p) := h
    rw [ha] at hidle
    exact hidle

end Foreground

/-- The child of a command that does not exist is at the menu, and the first shell waits for it. -/
theorem missingProgram_foreground : ∃ t g,
    (mc2 1).RunIf InForeground (.act 2 (.poll none) :: missingProgram.reverse) t ∧
    t.status 1 = .active (.shell (.wait 2) g) ∧
      (shellOf t 2).any (fun x => x.1 = .menu) = true :=
  exists_run InForeground (by decide +kernel)

end Cs3013.Shell
