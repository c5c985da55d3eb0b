import Cs3013.Library.Nesting
import Cs3013.Shell.Mainprocess

/-!
# The shell without background commands

`mc1.c`, from one system call to the next. `main` calls itself after every choice. The default
branch goes through all places of `commands`, also behind a command that it has run; the places that
are not used have the ID 0, which no character of this branch stands for.
-/
namespace Cs3013.Shell.Mc1

open Function Cs3013.Library.CText Cs3013.Library.Nesting Cs3013.Library.Processes
  Cs3013.Library.Transition

/-- `struct Command`, with the strings in its buffers. -/
structure Command where
  stored : List Char × List Char
  commandname : List Char
  opnum : Int

/-- The global variables. -/
structure Globals where
  addedcommands : Nat
  commands : Fin 100 → Command
  firstrun : Int

/-- `none` where the array `commands` is left. The buffers that the first call makes are not read
before a string has been copied to them. -/
def addcommand (command : List Char × List Char) (name : List Char) (g : Globals) :
    Option Globals :=
  if h : g.addedcommands < 100 then
    some
      { firstrun := 0
        commands := update g.commands ⟨g.addedcommands, h⟩ ⟨command, name, 3 + g.addedcommands⟩
        addedcommands := g.addedcommands + 1 }
  else
    none

/-- Where `run` returns to: behind the switch, or into the loop of the default branch, with the
number it looks for and the places it has left. -/
inductive Back where
  | behind
  | next (choice : Int) (places : List (Fin 100))
  deriving DecidableEq

/-- The place of a process in the code. -/
inductive Place where
  | menu
  | run (args : List (List Char)) (back : Back)
  | execvp (args : List (List Char)) (back : Back)
  | wait (child : Int) (back : Back)
  | returned
  | done
  deriving DecidableEq

/-- The loop of the default branch. No null pointer follows the two strings. -/
def scan (g : Globals) (choice : Int) : List (Fin 100) → Place
  | [] => .returned
  | k :: places =>
    if (g.commands k).opnum = choice then
      .run [(g.commands k).stored.1, (g.commands k).stored.2] (.next choice places)
    else
      scan g choice places

def Back.resume (g : Globals) : Back → Place
  | .behind => .returned
  | .next choice places => scan g choice places

/-- The branch of the letter a; `none` where `strcpy` reads the null result of `strtok`. -/
def readcommand (i : Input) (g : Globals) : Option Globals :=
  let usercommand := cString (chomp (inputBuffer i.line))
  match strtok ' ' usercommand with
  | first :: second :: _ => addcommand (first, second) usercommand g
  | _ => none

/-- `choice` as the switch sees it; the end of the input counts as the letter e. -/
def choiceOf (i : Input) : Nat :=
  match i.choice with
  | some choice => choice.toNat
  | none => 101

/-- The switch of `main`. -/
def dispatch (i : Input) (g : Globals) : Option (Place × Globals) :=
  match choiceOf i with
  | 48 => some (.run ["whoami".toList] .behind, g)
  | 49 => some (.run ["last".toList] .behind, g)
  | 50 => some (.run ("ls".toList :: lsArguments i.line ++ lsArguments i.path) .behind, g)
  | 97 => (readcommand i g).map fun g => (.returned, g)
  | 101 => some (.done, g)
  | 99 => some (.returned, g)
  | 112 => some (.run ["pwd".toList] .behind, g)
  | choice =>
    if g.firstrun = 1 then some (.returned, g)
    else some (scan g (choice - 48) (List.finRange 100), g)

inductive Process where
  | shell (place : Place) (g : Globals)
  | program (args : List (List Char))

def code : Process → Action → Option (Call Process)
  | .shell .menu g, .input i => (dispatch i g).map fun (place, g) => .step (.shell place g)
  | .shell (.run args back) g, .fork c =>
    some (.fork c (.shell (.wait c back) g) (.shell (.execvp args back) g))
  | .shell (.execvp args back) g, .execvp found =>
    some (.step (if found then .program args else .shell (back.resume g) g))
  | .shell (.wait _ back) g, .wait (some z) => some (.wait z (.shell (back.resume g) g))
  | .shell (.wait _ back) g, .wait none => some (.fail (.shell (back.resume g) g))
  | .shell .returned g, .loop => some (.step (.shell .menu g))
  | _, _ => none

/-- The variables when the program starts: static storage is zero. -/
def startup (commands : Fin 100 → Command) : Globals where
  addedcommands := 0
  commands := commands
  firstrun := 1

/-- All processes that come from the process `shell`. -/
def mc1 (shell : Int) : System (Table Process) (Event Action) :=
  processes code fun t => 0 < shell ∧ ∃ commands : Fin 100 → Command,
    (∀ k, (commands k).opnum = 0) ∧ t = .single shell (.shell .menu (startup commands))

/-- The child that a process waits for. -/
def awaits : Process → Option Int
  | .shell (.wait c _) _ => some c
  | _ => none

/-! ## The choices -/

section Choices

variable {g g' : Globals} {i : Input} {place : Place} {choice : Int} {places : List (Fin 100)}
  {back : Back}

/-- A choice ends in a place where the process does not wait. -/
theorem scan_idle : awaits (.shell (scan g choice places) g') = none := by
  induction places with
  | nil => rfl
  | cons k places ih =>
    rw [scan]
    split_ifs
    · rfl
    · exact ih

theorem resume_idle : awaits (.shell (back.resume g) g') = none := by
  cases back with
  | behind => rfl
  | next choice places => exact scan_idle

/-- Only the letter a adds a command. -/
theorem dispatch_cases (h : dispatch i g = some (place, g')) :
    (g' = g ∨ readcommand i g = some g') ∧ awaits (.shell place g') = none := by
  unfold dispatch at h
  split at h
  case h_4 =>
    obtain ⟨g₁, hg, heq⟩ := Option.map_eq_some_iff.mp h
    cases heq
    exact ⟨.inr hg, rfl⟩
  case h_8 =>
    split_ifs at h
    · cases h
      exact ⟨.inl rfl, rfl⟩
    · cases h
      exact ⟨.inl rfl, scan_idle⟩
  all_goals cases h; exact ⟨.inl rfl, rfl⟩

theorem code_nests {a : Process} {l : Action} {x : Call Process} (h : code a l = some x) :
    Nests awaits a x := by
  unfold code at h
  split at h
  · obtain ⟨⟨place, g'⟩, hi, rfl⟩ := Option.map_eq_some_iff.mp h
    exact ⟨rfl, (dispatch_cases hi).2⟩
  · obtain rfl := Option.some_inj.mp h
    exact ⟨rfl, rfl, rfl⟩
  · obtain rfl := Option.some_inj.mp h
    refine ⟨rfl, ?_⟩
    split_ifs
    · rfl
    · exact resume_idle
  · obtain rfl := Option.some_inj.mp h
    exact resume_idle
  · obtain rfl := Option.some_inj.mp h
    exact resume_idle
  · obtain rfl := Option.some_inj.mp h
    exact ⟨rfl, rfl⟩
  · cases h

end Choices

/-! ## One process at a time -/

section Runs

variable {shell : Int} {t : Table Process} {h : List (Event Action)}

end Runs

/-- `whoami` is not found, and its process goes on as a shell. -/
def notFound : List (Event Action) :=
  [.act 1 (.input ⟨some 48, [], [], []⟩), .act 1 (.fork 2), .act 2 (.execvp false),
    .act 2 .loop]

def placeOf : Status Process → Option Place
  | .active (.shell place _) => some place
  | _ => none

/-- The variables of a process at the menu. -/
def menuOf : Status Process → Option Globals
  | .active (.shell .menu g) => some g
  | _ => none

theorem status_of_menuOf {x : Status Process} {g : Globals} (h : menuOf x = some g) :
    x = .active (.shell .menu g) := by
  unfold menuOf at h
  split at h
  · cases h
    rfl
  · cases h

/-- A shell with the process number 1 and empty buffers. -/
def freshShell : Table Process := .single 1 (.shell .menu (startup fun _ => ⟨([], []), [], 0⟩))

theorem freshShell_init : (mc1 1).init freshShell := ⟨by decide, _, fun _ => rfl, rfl⟩

theorem notFound_end : ∃ t, (mc1 1).RunIf (fun t e => EndsIdle awaits t e) notFound.reverse t ∧
    (placeOf (t.status 1) = some (.wait 2 .behind) ∧ placeOf (t.status 2) = some .menu) :=
  Library.Processes.exists_run freshShell_init _ (by decide +kernel)

/-- The characters with a branch of their own. -/
def fixedOptions : List Nat := [48, 49, 50, 97, 99, 101, 112]

/-- A command has its place plus three as its ID, and `firstrun` tells whether there is one. -/
structure Numbered (g : Globals) : Prop where
  opnum : ∀ k : Fin 100,
    (g.commands k).opnum = if k.val < g.addedcommands then 3 + (k.val : Int) else 0
  firstrun : g.firstrun = 1 ↔ g.addedcommands = 0

section Numbers

variable {g g' : Globals} {i : Input} {place place' : Place} {choice : Int}
  {places : List (Fin 100)} {k j : Fin 100} {a : Process} {l : Action} {x : Call Process}
  {command : List Char × List Char} {name : List Char} {c : Int} {b : Process}

theorem scan_none (h : ∀ k ∈ places, (g.commands k).opnum ≠ choice) :
    scan g choice places = .returned := by
  induction places with
  | nil => rfl
  | cons k places ih =>
    rw [scan, if_neg (h k List.mem_cons_self)]
    exact ih fun j hj => h j (List.mem_cons_of_mem _ hj)

theorem scan_found {before : List (Fin 100)}
    (hbefore : ∀ j ∈ before, (g.commands j).opnum ≠ choice) (hk : (g.commands k).opnum = choice) :
    scan g choice (before ++ k :: places) =
      .run [(g.commands k).stored.1, (g.commands k).stored.2] (.next choice places) := by
  induction before with
  | nil => exact if_pos hk
  | cons j before ih =>
    rw [List.cons_append, scan, if_neg (hbefore j List.mem_cons_self)]
    exact ih fun j' hj' => hbefore j' (List.mem_cons_of_mem _ hj')

theorem Numbered.inj (hs : Numbered g) (hk : k.val < g.addedcommands)
    (hsame : (g.commands j).opnum = (g.commands k).opnum) : j = k := by
  have hnumber := hs.opnum k
  have hother := hs.opnum j
  rw [if_pos hk] at hnumber
  rw [hsame, hnumber] at hother
  apply Fin.ext
  split_ifs at hother <;> omega

theorem Numbered.add (hs : Numbered g) (h : addcommand command name g = some g') :
    Numbered g' := by
  unfold addcommand at h
  split at h
  · next hroom =>
    cases h
    refine ⟨fun k => ?_, ?_⟩
    · by_cases hk : k = ⟨g.addedcommands, hroom⟩
      · subst hk
        simp
      · have hval : k.val ≠ g.addedcommands := fun h => hk (Fin.ext h)
        simp only [update_of_ne hk, hs.opnum k]
        apply if_congr _ rfl rfl
        omega
    · have hzero : ¬ (0 : Int) = 1 := by decide
      exact ⟨fun h => absurd h hzero, fun h => absurd h (Nat.succ_ne_zero _)⟩
  · cases h

theorem Numbered.read (hs : Numbered g) (h : readcommand i g = some g') : Numbered g' := by
  unfold readcommand at h
  dsimp only at h
  split at h
  · exact hs.add h
  · cases h

theorem startup_numbered {commands : Fin 100 → Command} (h : ∀ k, (commands k).opnum = 0) :
    Numbered (startup commands) :=
  ⟨fun k => (h k).trans (if_neg (Nat.not_lt_zero _)).symm, fun _ => rfl, fun _ => rfl⟩

/-- A process keeps the table of commands or adds to it. -/
theorem code_entries (h : code a l = some x) (hnext : .shell place' g' = x.next) :
    ∃ place g, a = .shell place g ∧ (g' = g ∨ ∃ i, readcommand i g = some g') := by
  unfold code at h
  split at h
  · next g i =>
    obtain ⟨⟨place, g₁⟩, hi, rfl⟩ := Option.map_eq_some_iff.mp h
    cases hnext
    refine ⟨_, g, rfl, ?_⟩
    rcases (dispatch_cases hi).1 with hsame | hread
    · exact .inl hsame
    · exact .inr ⟨i, hread⟩
  · cases h
    cases hnext
    exact ⟨_, _, rfl, .inl rfl⟩
  · next args back g found =>
    cases h
    cases found with
    | true => cases hnext
    | false =>
      cases hnext
      exact ⟨_, _, rfl, .inl rfl⟩
  · cases h
    cases hnext
    exact ⟨_, _, rfl, .inl rfl⟩
  · cases h
    cases hnext
    exact ⟨_, _, rfl, .inl rfl⟩
  · cases h
    cases hnext
    exact ⟨_, _, rfl, .inl rfl⟩
  · cases h

/-- A new process has the table of its parent. -/
theorem code_copy (h : code a l = some (.fork c b (.shell place g))) :
    ∃ place', a = .shell place' g := by
  unfold code at h
  split at h
  · obtain ⟨_, -, heq⟩ := Option.map_eq_some_iff.mp h
    cases heq
  · cases h
    exact ⟨_, rfl⟩
  · cases h
  · cases h
  · cases h
  · cases h
  · cases h

/-- In every run the commands of every process that executes the code of the shell are numbered. -/
theorem run_numbered {shell p : Int} {t : Table Process} {h : List (Event Action)}
    (hrun : (mc1 shell).Run h t) (hp : t.status p = .active (.shell place g)) : Numbered g := by
  have hall : ∀ p place g, t.status p = .active (.shell place g) → Numbered g := by
    apply hrun.stateInvariant (I := fun t => ∀ p place g,
      t.status p = .active (.shell place g) → Numbered g)
    · rintro _ ⟨-, commands, hcommands, rfl⟩ p place g hp
      by_cases hshell : p = shell
      · subst hshell
        cases (Table.single_status _).symm.trans hp
        exact startup_numbered hcommands
      · rw [Table.single_absent hshell] at hp
        cases hp
    · intro t e u hs _ hstep p place g hu
      rcases (step_change hstep p).active hu with hsame | hacts | hnew
      · exact hs p place g hsame.1
      · obtain ⟨a, l, x, -, ha, hx, -, hnext⟩ := hacts
        obtain ⟨place', g', rfl, rfl | ⟨i, hread⟩⟩ := code_entries hx hnext
        · exact hs p place' g ha
        · exact (hs p place' g' ha).read hread
      · obtain ⟨q, a, l, b', -, ha, hx, -⟩ := hnew
        obtain ⟨place', rfl⟩ := code_copy hx
        exact hs q place' g ha
  exact hall p place g hp

theorem dispatch_default {choice : UInt8} (hchoice : choice.toNat ∉ fixedOptions)
    (hi : i.choice = some choice) : dispatch i g = some (if g.firstrun = 1 then .returned
      else scan g (choice.toNat - 48) (List.finRange 100), g) := by
  simp only [fixedOptions, List.mem_cons, List.not_mem_nil, or_false, not_or] at hchoice
  obtain ⟨h48, h49, h50, h97, h99, h101, h112⟩ := hchoice
  have hof : choiceOf i = choice.toNat := by rw [choiceOf, hi]
  rw [dispatch, hof]
  split
  · next h => exact absurd h h48
  · next h => exact absurd h h49
  · next h => exact absurd h h50
  · next h => exact absurd h h97
  · next h => exact absurd h h101
  · next h => exact absurd h h99
  · next h => exact absurd h h112
  · split_ifs
    · rfl
    · rfl

/-- Whatever has been added before, a character without a branch of its own starts the command with
its number as ID, and when `run` comes back, in the shell or in a child whose program was not found,
the rest of the loop starts no other one; without such a command it starts nothing. -/
theorem starts_exactly_one {shell p : Int} {t : Table Process} {h : List (Event Action)}
    {choice : UInt8} (hrun : (mc1 shell).Run h t) (hp : t.status p = .active (.shell .menu g))
    (hchoice : choice.toNat ∉ fixedOptions) (hi : i.choice = some choice) :
    (∀ k : Fin 100, k.val < g.addedcommands → (g.commands k).opnum = choice.toNat - 48 →
      ∃ back : Back, dispatch i g =
          some (.run [(g.commands k).stored.1, (g.commands k).stored.2] back, g) ∧
        back.resume g = .returned) ∧
      ((∀ k : Fin 100, k.val < g.addedcommands → (g.commands k).opnum ≠ choice.toNat - 48) →
        dispatch i g = some (.returned, g)) := by
  have hs := run_numbered hrun hp
  have hdefault : dispatch i g = _ := dispatch_default hchoice hi
  constructor
  · intro k hk hid
    have hfirst : ¬ g.firstrun = 1 := fun hone => by
      rw [hs.firstrun.mp hone] at hk
      exact absurd hk (Nat.not_lt_zero _)
    obtain ⟨before, places, hsplit⟩ := List.append_of_mem (List.mem_finRange k)
    have hnodup := List.nodup_finRange 100
    rw [hsplit, List.nodup_middle, List.nodup_cons, List.mem_append, not_or] at hnodup
    have hother : ∀ j ∈ before ++ places, (g.commands j).opnum ≠ choice.toNat - 48 := by
      intro j hj hsame
      obtain rfl := hs.inj hk (hsame.trans hid.symm)
      exact (List.mem_append.mp hj).elim hnodup.1.1 hnodup.1.2
    refine ⟨.next (choice.toNat - 48) places, ?_, ?_⟩
    · rw [hdefault, if_neg hfirst, hsplit,
        scan_found (fun j hj => hother j (List.mem_append_left _ hj)) hid]
    · exact scan_none fun j hj => hother j (List.mem_append_right _ hj)
  · intro hnone
    rw [hdefault]
    split_ifs
    · rfl
    · rw [scan_none]
      intro k _ hid
      by_cases hk : k.val < g.addedcommands
      · exact hnone k hk hid
      · have hnumber := hs.opnum k
        rw [if_neg hk] at hnumber
        simp only [fixedOptions, List.mem_cons, not_or] at hchoice
        exact hchoice.1 (by omega)

end Numbers

/-- The command `ls /` is added, and a character between the digits and the letters is read. -/
def oneAdded : List (Event Action) :=
  [.act 1 (.input ⟨some 97, ['l', 's', ' ', '/', '\n'], [], []⟩), .act 1 .loop]

theorem oneAdded_menu : ∃ t, (mc1 1).RunIf (fun _ _ => True) oneAdded.reverse t ∧
    ((menuOf (t.status 1)).any fun g =>
      g.addedcommands = 1 ∧ (g.commands 0).stored = (['l', 's'], ['/'])) = true :=
  Library.Processes.exists_run freshShell_init _ (by decide +kernel)

/-- The character '3' starts it. -/
theorem starts_exactly_one_added : ∃ h t g back, (mc1 1).Run h t ∧
    t.status 1 = .active (.shell .menu g) ∧
    dispatch ⟨some 51, [], [], []⟩ g = some (.run [['l', 's'], ['/']] back, g) ∧
    back.resume g = .returned := by
  obtain ⟨t, hrun, hmenu⟩ := oneAdded_menu
  obtain ⟨g, hg, hadded⟩ := (Option.any_eq_true _ _).mp hmenu
  obtain ⟨hadded, hstored⟩ := of_decide_eq_true hadded
  have hp := status_of_menuOf hg
  have hid := (run_numbered hrun hp).opnum 0
  rw [hadded] at hid
  obtain ⟨back, hdispatch, hback⟩ := (starts_exactly_one (i := ⟨some 51, [], [], []⟩) hrun hp
    (by decide) rfl).1 0 (by rw [hadded]; decide) (hid.trans (by decide))
  rw [hstored] at hdispatch
  exact ⟨_, t, g, back, hrun, hp, hdispatch, hback⟩

end Cs3013.Shell.Mc1
