import Cs3013.Library.CText
import Cs3013.Library.Processes
import Cs3013.Shell.Background

/-!
# The processes of the shell

`mc2.c` as the shell and every process it forks execute it, from one system call to the next. A
process forked by `run` or for a background command is a copy of the shell, and until `execvp` has
replaced it the code below it is the same: it returns to the callers of `run` as the shell does.
-/
namespace Cs3013.Shell

open Function Cs3013.Library.CText Cs3013.Library.Processes Cs3013.Library.Transition

/-! ## Commands and the menu -/

/-- `struct Command`, with the strings in its buffers. -/
structure Command where
  stored : List Char × List Char
  commandname : List Char
  opnum : Int
  background : Int

/-- The global variables. `added` lists the background processes that were given a slot of
`running`; no function reads it. -/
structure Globals where
  leave : Int
  removepid : Int
  running : Running
  addedcommands : Nat
  commands : Fin 100 → Command
  added : List Int

/-- The loops that replace each newline of a buffer. -/
def chomp (buffer : List Char) : List Char := buffer.map fun c => if c = '\n' then '\x00' else c

/-- A buffer after a string has been copied over its first characters. -/
def strcpy (buffer text : List Char) : List Char :=
  text ++ '\x00' :: buffer.drop (text.length + 1)

/-- The loop goes over the whole buffer, also behind the end of the string. -/
def isbackground (string : List Char) : Bool := (string.take 128).contains '&'

/-- `none` where the array `commands` is left. -/
def addcommand (command : List Char × List Char) (name : List Char) (g : Globals) :
    Option Globals :=
  if h : g.addedcommands < 100 then
    some { g with
      commands := update g.commands ⟨g.addedcommands, h⟩
        ⟨command, cString name, 3 + g.addedcommands, if isbackground name then 1 else 0⟩
      addedcommands := g.addedcommands + 1 }
  else
    none

/-- What the user types: a character or the end of the input, and the lines that the branch of the
character reads. `stale` is what the array `name` happens to hold. -/
structure Input where
  choice : Option UInt8
  line : List Char
  path : List Char
  stale : List Char

/-- The place of a process in the code: a system call it is about to make, the prompt, or the point
where `mainprocess` or `main` has returned. `wait` and `returned` tell which process the call of
`run` has forked. -/
inductive Place where
  | mainprocess
  | menu
  | run (args : List (List Char))
  | launch (args : List (List Char))
  | execvp (args : List (List Char))
  | wait (child : Int)
  | returned (child : Option Int)
  | leaving
  | waitpid
  | done
  deriving DecidableEq

/-- An array of INPUTLENGTH characters after `fgets`. -/
def inputBuffer (text : List Char) : List Char := (takeLine 127 text).1

/-- The optional arguments of `ls`. -/
def lsArguments (text : List Char) : List (List Char) :=
  if (inputBuffer text).head? = some '\n' then [] else [cString (chomp (inputBuffer text))]

/-- The branch of the letter a, whose write behind the end of `usercommand` has no other effect;
`none` where `strcpy` reads the null result of `strtok`. -/
def readcommand (i : Input) (g : Globals) : Option Globals :=
  let usercommand := cString (chomp (inputBuffer i.line))
  match strtok ' ' usercommand with
  | first :: second :: _ => addcommand (first, second) (strcpy i.stale usercommand) g
  | _ => none

/-- The switch of `mainprocess`. -/
def dispatch (i : Input) (g : Globals) : Option (Place × Globals) :=
  match i.choice with
  | none => some (.leaving, g)
  | some choice =>
    match choice.toNat with
    | 48 => some (.run ["whoami".toList], g)
    | 49 => some (.run ["last".toList], g)
    | 50 => some (.run ("ls".toList :: lsArguments i.line ++ lsArguments i.path), g)
    | 97 => (readcommand i g).map fun g => (.returned none, g)
    | 101 => some (.leaving, g)
    | 99 => some (.returned none, g)
    | 112 => some (.run ["pwd".toList], g)
    | 114 => some (.returned none, g)
    | _ =>
      match Fin.find? fun k => decide ((g.commands k).opnum = choice.toNat - 48) with
      | some k =>
        -- no null pointer follows the two strings; `execvp` may fail for it
        let args := [(g.commands k).stored.1, (g.commands k).stored.2]
        if (g.commands k).background = 0 then some (.run args, g) else some (.launch args, g)
      | none => some (.returned none, g)

/-! ## One process -/

inductive Process where
  | shell (place : Place) (g : Globals)
  | program (args : List (List Char))

/-- What comes from outside: the result of a call, and what the user types. -/
inductive Action where
  | poll (z : Option Int)
  | input (i : Input)
  | fork (c : Int)
  | execvp (found : Bool)
  | wait (z : Option Int)
  | loop
  | leave

namespace Globals

variable (g : Globals)

/-- The test of `leave` before the menu. -/
def prompt : Process := .shell (if g.leave = 0 then .menu else .leaving) g

/-- The test of `leave` in `main`. -/
def again : Process := .shell (if g.leave = 0 then .mainprocess else .leaving) g

/-- The parent of a background process. -/
def launched (pid : Int) : Globals :=
  { g with
    running := (addrunning pid g.running).2
    added := if (addrunning pid g.running).1 = -1 then g.added else g.added ++ [pid] }

end Globals

/-- A result `none` of `waitpid` or `wait` is one that is not positive. There is no step where
`removebackground` reads its index uninitialised. -/
def code : Process → Action → Option (Call Process)
  | .shell .mainprocess g, .poll (some z) =>
    (removebackground z g.running).map fun running => .wait z { g with running }.prompt
  | .shell .mainprocess g, .poll none => some (.poll g.prompt)
  | .shell .menu g, .input i =>
    (dispatch i g).map fun (place, g) => .step (.shell place g)
  | .shell (.run args) g, .fork c =>
    some (.fork c (.shell (.wait c) g) (.shell (.execvp args) g))
  | .shell (.launch args) g, .fork c =>
    some (.fork c (.shell (.returned none) (g.launched c)) (.shell (.run args) g))
  | .shell (.execvp args) g, .execvp found =>
    some (.step (if found then .program args else .shell (.returned none) g))
  | .shell (.wait c) g, .wait (some z) => some (.wait z (.shell (.returned (some c)) g))
  | .shell (.wait c) g, .wait none => some (.fail (.shell (.returned (some c)) g))
  | .shell (.returned _) g, .loop =>
    (removebackground g.removepid g.running).map fun running => .step { g with running }.again
  | .shell .leaving g, .leave =>
    let g := { g with leave := 1 }
    some (.step (.shell (if emptybackground g.running = 0 then .waitpid else .done) g))
  | .shell .waitpid g, .wait (some z) => some (.wait z (.shell .done g))
  | .shell .waitpid g, .wait none => some (.fail (.shell .done g))
  | _, _ => none

/-- The variables when `main` enters its loop. -/
def startup (commands : Fin 100 → Command) : Globals where
  leave := 0
  removepid := 0
  running := fun _ => 0
  addedcommands := 0
  commands := commands
  added := []

/-- All processes that come from the process `shell`. -/
def mc2 (shell : Int) : System (Table Process) (Event Action) :=
  processes code fun t => 0 < shell ∧ ∃ commands : Fin 100 → Command,
    (∀ k, (commands k).opnum = -1 ∧ (commands k).background = 0) ∧
      t = .single shell (.shell .mainprocess (startup commands))

/-- What a process can do next. -/
inductive Move : Process → Action → Call Process → Prop
  | remove {g : Globals} {z : Int} {running : Running}
      (hr : removebackground z g.running = some running) :
      Move (.shell .mainprocess g) (.poll (some z)) (.wait z { g with running }.prompt)
  | poll {g : Globals} : Move (.shell .mainprocess g) (.poll none) (.poll g.prompt)
  | input {g g' : Globals} {i : Input} {place : Place} (hi : dispatch i g = some (place, g')) :
      Move (.shell .menu g) (.input i) (.step (.shell place g'))
  | run {g : Globals} {args : List (List Char)} {c : Int} :
      Move (.shell (.run args) g) (.fork c)
        (.fork c (.shell (.wait c) g) (.shell (.execvp args) g))
  | launch {g : Globals} {args : List (List Char)} {c : Int} :
      Move (.shell (.launch args) g) (.fork c)
        (.fork c (.shell (.returned none) (g.launched c)) (.shell (.run args) g))
  | execvp {g : Globals} {args : List (List Char)} :
      Move (.shell (.execvp args) g) (.execvp true) (.step (.program args))
  | notFound {g : Globals} {args : List (List Char)} :
      Move (.shell (.execvp args) g) (.execvp false) (.step (.shell (.returned none) g))
  | wait {g : Globals} {c z : Int} :
      Move (.shell (.wait c) g) (.wait (some z)) (.wait z (.shell (.returned (some c)) g))
  | noChild {g : Globals} {c : Int} :
      Move (.shell (.wait c) g) (.wait none) (.fail (.shell (.returned (some c)) g))
  | loop {g : Globals} {child : Option Int} {running : Running}
      (hr : removebackground g.removepid g.running = some running) :
      Move (.shell (.returned child) g) .loop (.step { g with running }.again)
  | await {g : Globals} (h : emptybackground g.running = 0) :
      Move (.shell .leaving g) .leave (.step (.shell .waitpid { g with leave := 1 }))
  | leave {g : Globals} (h : emptybackground g.running ≠ 0) :
      Move (.shell .leaving g) .leave (.step (.shell .done { g with leave := 1 }))
  | waitpid {g : Globals} {z : Int} :
      Move (.shell .waitpid g) (.wait (some z)) (.wait z (.shell .done g))
  | noneLeft {g : Globals} : Move (.shell .waitpid g) (.wait none) (.fail (.shell .done g))

theorem move_of_code {a : Process} {l : Action} {x : Call Process} (h : code a l = some x) :
    Move a l x := by
  unfold code at h
  split at h
  · obtain ⟨running, hr, rfl⟩ := Option.map_eq_some_iff.mp h
    exact .remove hr
  · obtain rfl := Option.some_inj.mp h
    exact .poll
  · obtain ⟨⟨place, g'⟩, hi, rfl⟩ := Option.map_eq_some_iff.mp h
    exact .input hi
  · obtain rfl := Option.some_inj.mp h
    exact .run
  · obtain rfl := Option.some_inj.mp h
    exact .launch
  · obtain rfl := Option.some_inj.mp h
    split_ifs with hfound
    · subst hfound
      exact .execvp
    · obtain rfl := Bool.eq_false_iff.mpr hfound
      exact .notFound
  · obtain rfl := Option.some_inj.mp h
    exact .wait
  · obtain rfl := Option.some_inj.mp h
    exact .noChild
  · obtain ⟨running, hr, rfl⟩ := Option.map_eq_some_iff.mp h
    exact .loop hr
  · obtain rfl := Option.some_inj.mp h
    dsimp only
    split_ifs with hempty
    · exact .await hempty
    · exact .leave hempty
  · obtain rfl := Option.some_inj.mp h
    exact .waitpid
  · obtain rfl := Option.some_inj.mp h
    exact .noneLeft
  · cases h

theorem addcommand_frame {command : List Char × List Char} {name : List Char} {g g' : Globals}
    (h : addcommand command name g = some g') :
    g'.running = g.running ∧ g'.added = g.added ∧ g'.removepid = g.removepid := by
  unfold addcommand at h
  split at h
  · obtain rfl := Option.some_inj.mp h
    exact ⟨rfl, rfl, rfl⟩
  · cases h

/-- A choice leaves the background processes alone, and there are four ways on. -/
theorem dispatch_cases {i : Input} {g g' : Globals} {place : Place}
    (h : dispatch i g = some (place, g')) :
    (g'.running = g.running ∧ g'.added = g.added ∧ g'.removepid = g.removepid) ∧
      (place = .leaving ∨ place = .returned none ∨ ∃ args, place = .run args ∨
        place = .launch args) := by
  unfold dispatch at h
  split at h
  · cases h
    exact ⟨⟨rfl, rfl, rfl⟩, .inl rfl⟩
  · split at h
    case h_4 =>
      obtain ⟨g₁, hg, heq⟩ := Option.map_eq_some_iff.mp h
      cases heq
      unfold readcommand at hg
      dsimp only at hg
      split at hg
      · exact ⟨addcommand_frame hg, .inr (.inl rfl)⟩
      · cases hg
    case h_9 =>
      split at h
      · dsimp only at h
        split_ifs at h
        · cases h
          exact ⟨⟨rfl, rfl, rfl⟩, .inr (.inr ⟨_, .inl rfl⟩)⟩
        · cases h
          exact ⟨⟨rfl, rfl, rfl⟩, .inr (.inr ⟨_, .inr rfl⟩)⟩
      · cases h
        exact ⟨⟨rfl, rfl, rfl⟩, .inr (.inl rfl)⟩
    all_goals cases h; refine ⟨⟨rfl, rfl, rfl⟩, ?_⟩
    · exact .inr (.inr ⟨_, .inl rfl⟩)
    · exact .inr (.inr ⟨_, .inl rfl⟩)
    · exact .inr (.inr ⟨_, .inl rfl⟩)
    · exact .inl rfl
    · exact .inr (.inl rfl)
    · exact .inr (.inr ⟨_, .inl rfl⟩)
    · exact .inr (.inl rfl)

/-! ## Runs -/

/-- The place and the variables of a process that has not replaced its program. -/
def shellOf (t : Table Process) (p : Int) : Option (Place × Globals) :=
  match t.status p with
  | .active (.shell place g) => some (place, g)
  | _ => none

theorem status_of_shellOf {t : Table Process} {p : Int} {place : Place} {g : Globals}
    (h : shellOf t p = some (place, g)) : t.status p = .active (.shell place g) := by
  unfold shellOf at h
  split at h
  · next hstatus =>
    cases h
    exact hstatus
  · cases h

/-- A shell with the process number 1 and empty buffers. -/
def freshShell : Table Process :=
  .single 1 (.shell .mainprocess (startup fun _ => ⟨([], []), [], -1, 0⟩))

/-- Events that can be played one after the other, the last one first in `h`, are a run, and the
shell reaches the place where they leave it. -/
theorem exists_run (ok : Table Process → Event Action → Prop) [∀ t e, Decidable (ok t e)]
    {h : List (Event Action)} {place : Place} {P : Table Process → Globals → Prop}
    [∀ t g, Decidable (P t g)]
    (hplay : (System.playIf (Table.next code) ok freshShell h.reverse).any (fun t =>
      (shellOf t 1).any fun x => decide (x.1 = place ∧ P t x.2)) = true) :
    ∃ t g, (mc2 1).RunIf ok h t ∧ t.status 1 = .active (.shell place g) ∧ P t g := by
  obtain ⟨t, ht, hat⟩ := (Option.any_eq_true _ _).mp hplay
  obtain ⟨⟨place', g⟩, hg, hplace⟩ := (Option.any_eq_true _ _).mp hat
  obtain ⟨rfl, hP⟩ := of_decide_eq_true hplace
  have hinit : (mc2 1).init freshShell := ⟨by decide, _, fun _ => ⟨rfl, rfl⟩, rfl⟩
  have hsteps : (mc2 1).Steps ok freshShell h.reverse.reverse t :=
    System.steps_of_playIf (fun _ _ _ hnext => hnext) ht
  rw [List.reverse_reverse] at hsteps
  exact ⟨t, g, ⟨_, hinit, hsteps⟩, status_of_shellOf hg, hP⟩

end Cs3013.Shell
