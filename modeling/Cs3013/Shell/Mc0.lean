import Cs3013.Library.Nesting
import Cs3013.Shell.Mainprocess

/-!
# The first version of the shell

`mc0.c`, from one system call to the next. `main` calls itself after every choice and never returns.
The child of a program that is not found leaves `run` like its parent and becomes a shell, which
nothing in the code ends: the processes take turns, and every such program leaves one more shell.
-/
namespace Cs3013.Shell.Mc0

open Function Cs3013.Library.Nesting Cs3013.Library.Processes Cs3013.Library.Transition

/-- The place of a process in the code. -/
inductive Place where
  | menu
  | run (args : List (List Char))
  | execvp (args : List (List Char))
  | wait (child : Int)
  | returned
  deriving DecidableEq

inductive Process where
  | shell (place : Place)
  | program (args : List (List Char))

/-- The switch of `main`; the end of the input is an invalid choice, too. -/
def dispatch (i : Input) : Place :=
  match i.choice.map UInt8.toNat with
  | some 48 => .run ["whoami".toList]
  | some 49 => .run ["last".toList]
  | some 50 => .run ("ls".toList :: lsArguments i.line ++ lsArguments i.path)
  | _ => .returned

/-- `main` calls itself after every choice, and there is no way to leave. -/
def code : Process → Action → Option (Call Process)
  | .shell .menu, .input i => some (.step (.shell (dispatch i)))
  | .shell (.run args), .fork c => some (.fork c (.shell (.wait c)) (.shell (.execvp args)))
  | .shell (.execvp args), .execvp found =>
    some (.step (if found then .program args else .shell .returned))
  | .shell (.wait _), .wait (some z) => some (.wait z (.shell .returned))
  | .shell (.wait _), .wait none => some (.fail (.shell .returned))
  | .shell .returned, .loop => some (.step (.shell .menu))
  | _, _ => none

/-- All processes that come from the process `shell`. -/
def mc0 (shell : Int) : System (Table Process) (Event Action) :=
  processes code fun t => 0 < shell ∧ t = .single shell (.shell .menu)

/-- The child that a process waits for. -/
def awaits : Process → Option Int
  | .shell (.wait c) => some c
  | _ => none

theorem dispatch_idle (i : Input) : awaits (.shell (dispatch i)) = none := by
  unfold dispatch
  split <;> rfl

theorem code_nests {a : Process} {l : Action} {x : Call Process} (h : code a l = some x) :
    Nests awaits a x := by
  unfold code at h
  split at h
  · obtain rfl := Option.some_inj.mp h
    exact ⟨rfl, dispatch_idle _⟩
  · obtain rfl := Option.some_inj.mp h
    exact ⟨rfl, rfl, rfl⟩
  · obtain rfl := Option.some_inj.mp h
    refine ⟨rfl, ?_⟩
    split_ifs
    · rfl
    · rfl
  · obtain rfl := Option.some_inj.mp h
    exact rfl
  · obtain rfl := Option.some_inj.mp h
    exact rfl
  · obtain rfl := Option.some_inj.mp h
    exact ⟨rfl, rfl⟩
  · cases h

/-- The process runs the code of a shell; the child of `run` does not before `execvp` has failed. -/
def isShell : Status Process → Bool
  | .active (.shell (.execvp _)) => false
  | .active (.shell _) => true
  | _ => false

/-- A program is not found. -/
def isMissing : Event Action → Bool
  | .act _ (.execvp found) => !found
  | _ => false

/-- No shell is ended from outside. -/
def KeepsShells (t : Table Process) : Event Action → Prop
  | .act _ _ => True
  | .terminate p => isShell (t.status p) = false

instance (t : Table Process) (e : Event Action) : Decidable (KeepsShells t e) :=
  match e with
  | .act _ _ => inferInstanceAs (Decidable True)
  | .terminate _ => inferInstanceAs (Decidable (_ = _))

/-- The processes `ps` are the shells. -/
structure Lists (t : Table Process) (ps : List Int) : Prop where
  nodup : ps.Nodup
  mem_iff : ∀ p, p ∈ ps ↔ isShell (t.status p) = true

section Runs

variable {shell p q : Int} {t u : Table Process} {e : Event Action} {h : List (Event Action)}
  {a : Process} {l : Action} {x : Call Process} {found : Bool} {ps : List Int}

theorem active_of_shell {y : Status Process} (h : isShell y = true) : ∃ a, y = .active a := by
  cases y with
  | active a => exact ⟨a, rfl⟩
  | absent => cases h
  | ended => cases h
  | reaped => cases h

theorem not_active_of_ended (h : t.Ended p q) : t.status q ≠ .active a := by
  intro ha
  have hended := h.2
  rw [ha] at hended
  cases hended

theorem missing_cases (h : isMissing e = true) : ∃ q, e = .act q (.execvp false) := by
  unfold isMissing at h
  split at h
  · next p found =>
    cases found with
    | false => exact ⟨p, rfl⟩
    | true => cases h
  · cases h

theorem awaits_of_program (h : isShell (.active a) = false) : awaits a = none := by
  unfold awaits
  split
  · cases h
  · rfl

theorem KeepsShells.endsIdle (h : KeepsShells t e) : EndsIdle awaits t e := by
  cases e with
  | act p l => trivial
  | terminate p =>
    have hp : isShell (t.status p) = false := h
    show Idle awaits (t.status p)
    cases hstatus : t.status p with
    | active a => exact awaits_of_program (hstatus ▸ hp)
    | absent => trivial
    | ended => trivial
    | reaped => trivial

/-- No system call ends a shell, and only a failing `execvp` makes one. -/
theorem code_shell (h : code a l = some x) :
    isShell (.active x.next) = true ↔ isShell (.active a) = true ∨ l = .execvp false := by
  unfold code at h
  split at h
  · obtain rfl := Option.some_inj.mp h
    simp only [reduceCtorEq, or_false]
    unfold dispatch
    split <;> exact Iff.rfl
  · obtain rfl := Option.some_inj.mp h
    simp only [reduceCtorEq, or_false]
    exact Iff.rfl
  · next args found =>
    obtain rfl := Option.some_inj.mp h
    cases found with
    | true => simp [isShell, Call.next]
    | false => simp [isShell, Call.next]
  · obtain rfl := Option.some_inj.mp h
    simp only [reduceCtorEq, or_false]
    exact Iff.rfl
  · obtain rfl := Option.some_inj.mp h
    simp only [reduceCtorEq, or_false]
    exact Iff.rfl
  · obtain rfl := Option.some_inj.mp h
    simp only [reduceCtorEq, or_false]
    exact Iff.rfl
  · cases h

/-- Only the child of `run` calls `execvp`. -/
theorem code_execvp (h : code a (.execvp found) = some x) : isShell (.active a) = false := by
  unfold code at h
  split at h
  · next heq => cases heq
  · next heq => cases heq
  · rfl
  · next heq => cases heq
  · next heq => cases heq
  · next heq => cases heq
  · cases h

/-- The child of `run` is not a shell yet. -/
theorem code_fork {b b' : Process} (h : code a l = some (.fork q b b')) :
    isShell (.active b') = false := by
  unfold code at h
  split at h
  all_goals cases h
  rfl

theorem change_shell (h : Change code t e u q) (hkeep : KeepsShells t e) :
    isShell (u.status q) = true ↔ isShell (t.status q) = true ∨ e = .act q (.execvp false) := by
  cases h with
  | same he hstatus =>
    rw [hstatus]
    exact (or_iff_left (he _)).symm
  | acts he ha hx _ hstatus =>
    rw [hstatus, ha, he, code_shell hx, Event.act.injEq]
    simp only [true_and]
  | ends he ha hstatus =>
    subst he
    have hprogram : isShell (t.status q) = false := hkeep
    rw [hstatus, hprogram]
    simp [isShell]
  | starts he ha hx hold hstatus =>
    rw [hstatus, code_fork hx]
    refine ⟨fun hshell => Bool.noConfusion hshell, ?_⟩
    rintro (hshell | rfl)
    · obtain ⟨b, hb⟩ := active_of_shell hshell
      exact absurd (Table.created_of_active hb) hold
    · obtain ⟨rfl, -⟩ := Event.act.inj he
      exact absurd (Table.created_of_active ha) hold
  | reaped he ha hx hold hstatus =>
    rw [hstatus]
    refine ⟨fun hshell => Bool.noConfusion hshell, ?_⟩
    rintro (hshell | rfl)
    · obtain ⟨b, hb⟩ := active_of_shell hshell
      exact absurd hb (not_active_of_ended hold)
    · obtain ⟨rfl, -⟩ := Event.act.inj he
      exact absurd ha (not_active_of_ended hold)

theorem run_takes_turns (hrun : (mc0 shell).RunIf (fun t e => EndsIdle awaits t e) h t) :
    Sequential code awaits t := by
  apply run_sequential _ _ hrun
  · rintro _ ⟨hshell, rfl⟩
    exact ⟨shell, _, hshell, rfl, rfl⟩
  · intro t e he
    exact he.orderly fun _ _ _ a x _ hx => code_nests hx

/-- The process that `execvp` has failed for is a new shell. -/
theorem Lists.missing (hs : Lists t ps) (hkeep : KeepsShells t (.act q (.execvp false)))
    (h : (mc0 shell).step t (.act q (.execvp false)) u) : Lists u (q :: ps) where
  nodup := by
    obtain ⟨p, l, a, x, he, ha, hx, -, -⟩ | ⟨p, a, he, -, -⟩ := next_cases h
    · obtain ⟨rfl, rfl⟩ := Event.act.inj he
      refine List.nodup_cons.mpr ⟨fun hmem => ?_, hs.nodup⟩
      have hshell := (hs.mem_iff _).mp hmem
      rw [ha, code_execvp hx] at hshell
      cases hshell
    · cases he
  mem_iff p := by
    rw [change_shell (step_change h p) hkeep, List.mem_cons, hs.mem_iff p, Event.act.injEq,
      or_comm]
    simp only [and_true, eq_comm]

theorem Lists.step (hs : Lists t ps) (hkeep : KeepsShells t e) (h : (mc0 shell).step t e u)
    (hfound : isMissing e = false) : Lists u ps where
  nodup := hs.nodup
  mem_iff p := by
    rw [change_shell (step_change h p) hkeep, hs.mem_iff p]
    refine (or_iff_left ?_).symm
    rintro rfl
    cases hfound

/-- The shells are one more than the programs that have not been found. -/
theorem run_lists (hrun : (mc0 shell).RunIf KeepsShells h t) :
    ∃ ps, Lists t ps ∧ ps.length = 1 + h.countP isMissing := by
  apply hrun.invariant (I := fun h t => ∃ ps, Lists t ps ∧ ps.length = 1 + h.countP isMissing)
  · rintro _ ⟨-, rfl⟩
    refine ⟨[shell], ⟨List.nodup_singleton _, fun p => ?_⟩, rfl⟩
    by_cases hp : p = shell
    · subst hp
      rw [Table.single_status]
      exact ⟨fun _ => rfl, fun _ => List.mem_cons_self⟩
    · rw [Table.single_absent hp, List.mem_singleton]
      exact ⟨fun heq => absurd heq hp, fun hshell => Bool.noConfusion hshell⟩
  · intro h t e u ⟨ps, hs, hlength⟩ hkeep hstep
    cases hmissing : isMissing e with
    | false =>
      refine ⟨ps, hs.step hkeep hstep hmissing, ?_⟩
      rw [List.countP_cons_of_neg (by simp [hmissing]), hlength]
    | true =>
      obtain ⟨q, rfl⟩ := missing_cases hmissing
      refine ⟨q :: ps, hs.missing hkeep hstep, ?_⟩
      rw [List.countP_cons_of_pos hmissing, List.length_cons, hlength]
      omega

end Runs

/-- `whoami` is not found, and in the second shell `last` is not found. -/
def twoMissing : List (Event Action) :=
  [.act 1 (.input ⟨some 48, [], [], []⟩), .act 1 (.fork 2), .act 2 (.execvp false), .act 2 .loop,
    .act 2 (.input ⟨some 49, [], [], []⟩), .act 2 (.fork 3), .act 3 (.execvp false), .act 3 .loop]

theorem first_init : (mc0 1).init (.single 1 (.shell .menu)) := ⟨by decide, rfl⟩

theorem twoMissing_end : ∃ t, (mc0 1).RunIf KeepsShells twoMissing.reverse t ∧
    (isShell (t.status 1) = true ∧ isShell (t.status 2) = true ∧ isShell (t.status 3) = true) :=
  Library.Processes.exists_run first_init _ (by decide +kernel)

end Cs3013.Shell.Mc0
