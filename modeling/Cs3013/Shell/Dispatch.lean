import Cs3013.Shell.Entries

/-!
# Which command a character starts

The default branch compares the character, minus 48, with the ID of every place of `commands`, used
or not. The character '/' comes before '0' and gives -1, the ID of the places that are not used.
-/
namespace Cs3013.Shell

open Cs3013.Library.Processes Cs3013.Library.Transition

/-- The characters with a branch of their own. -/
def fixedOptions : List Nat := [48, 49, 50, 97, 99, 101, 112, 114]

/-- What the default branch starts, and what it prints before. -/
structure Answer where
  started : Option (Fin 100)
  text : List Char

def invalidInput : List Char := "\nInvalid input, try again! \n\n".toList

/-- The loop of the default branch over what is left of `commands`. -/
def answer (g : Globals) (choice : Int) : List (Fin 100) → Answer
  | [] => ⟨none, invalidInput⟩
  | k :: ks =>
    if (g.commands k).opnum = choice then
      ⟨some k, if (g.commands k).background = 0 then
        "== ".toList ++ (g.commands k).commandname ++ " ==\n".toList else []⟩
    else
      answer g choice ks

def defaultBranch (g : Globals) (choice : UInt8) : Answer :=
  answer g (choice.toNat - 48) (List.finRange 100)

/-- The call of `run` for a command, at once or in a process of its own. -/
def start (command : Command) : Place :=
  let args := [command.stored.1, command.stored.2]
  if command.background = 0 then .run args else .launch args

/-- The character starts the added command with its ID, once; without one it starts nothing and the
input is reported as invalid. -/
structure Exact (g : Globals) (choice : UInt8) : Prop where
  starts : ∀ k : Fin 100, k.val < g.addedcommands →
    (g.commands k).opnum = (choice.toNat : Int) - 48 → ∀ i : Input, i.choice = some choice →
      dispatch i g = some (start (g.commands k), g)
  refuses : (∀ k : Fin 100, k.val < g.addedcommands →
    (g.commands k).opnum ≠ (choice.toNat : Int) - 48) →
      (defaultBranch g choice).text = invalidInput ∧
        ∀ i : Input, i.choice = some choice → dispatch i g = some (.returned none, g)

section Branch

variable {g : Globals} {choice : UInt8} {number : Int} {ks : List (Fin 100)} {k : Fin 100}
  {i : Input}

theorem answer_started :
    (answer g number ks).started = ks.find? fun k => decide ((g.commands k).opnum = number) := by
  induction ks with
  | nil => rfl
  | cons k ks ih =>
    rw [answer, List.find?_cons]
    by_cases hk : (g.commands k).opnum = number
    · rw [if_pos hk, decide_eq_true hk]
    · rw [if_neg hk, decide_eq_false hk]
      exact ih

theorem answer_invalid (h : (answer g number ks).started = none) :
    (answer g number ks).text = invalidInput := by
  induction ks with
  | nil => rfl
  | cons k ks ih =>
    rw [answer] at h ⊢
    split_ifs at h ⊢
    exact ih h

theorem defaultBranch_started : (defaultBranch g choice).started =
    Fin.find? fun k => decide ((g.commands k).opnum = choice.toNat - 48) := by
  rw [defaultBranch, answer_started, Fin.find?_eq_find?_finRange]

theorem dispatch_default (hchoice : choice.toNat ∉ fixedOptions) (hi : i.choice = some choice) :
    dispatch i g = some (match (defaultBranch g choice).started with
      | some k => start (g.commands k)
      | none => .returned none, g) := by
  simp only [fixedOptions, List.mem_cons, List.not_mem_nil, or_false, not_or] at hchoice
  obtain ⟨h48, h49, h50, h97, h99, h101, h112, h114⟩ := hchoice
  rw [dispatch, hi, defaultBranch_started]
  dsimp only
  split
  · next h => exact absurd h h48
  · next h => exact absurd h h49
  · next h => exact absurd h h50
  · next h => exact absurd h h97
  · next h => exact absurd h h101
  · next h => exact absurd h h99
  · next h => exact absurd h h112
  · next h => exact absurd h h114
  · cases Fin.find? fun k => decide ((g.commands k).opnum = choice.toNat - 48) with
    | some k =>
      dsimp only [start]
      split_ifs
      · rfl
      · rfl
    | none => rfl

end Branch

section Numbers

variable {g : Globals} {choice : UInt8} {i : Input} {k : Fin 100}

/-- The loop finds the one added command with this ID. -/
theorem Numbered.find?_added (hs : Numbered g) (hk : k.val < g.addedcommands)
    (hid : (g.commands k).opnum = (choice.toNat : Int) - 48) :
    (defaultBranch g choice).started = some k := by
  rw [defaultBranch_started, Fin.find?_eq_some_iff]
  refine ⟨decide_eq_true hid, fun j hj => decide_eq_false fun hsame => ?_⟩
  have hnumber := hs k
  have hother := hs j
  rw [if_pos hk] at hnumber
  rw [hsame, ← hid, hnumber] at hother
  have hlt : j.val < k.val := hj
  split_ifs at hother <;> omega

/-- A character other than '/' finds no place that is not used. -/
theorem Numbered.find?_none (hs : Numbered g) (hslash : choice ≠ 47 ∨ 100 ≤ g.addedcommands)
    (hnone : ∀ k : Fin 100, k.val < g.addedcommands →
      (g.commands k).opnum ≠ (choice.toNat : Int) - 48) :
    (defaultBranch g choice).started = none := by
  rw [defaultBranch_started, Fin.find?_eq_none_iff]
  intro k
  apply decide_eq_false
  intro hid
  by_cases hk : k.val < g.addedcommands
  · exact hnone k hk hid
  · have hnumber := hs k
    rw [if_neg hk, hid] at hnumber
    rcases hslash with hslash | hfull
    · exact hslash (UInt8.toNat_inj.mp (by show choice.toNat = 47; omega))
    · omega

/-- '/' finds the first place that is not used. -/
theorem Numbered.find?_slash (hs : Numbered g) (hroom : g.addedcommands < 100) :
    (defaultBranch g 47).started = some ⟨g.addedcommands, hroom⟩ := by
  have hunused := hs ⟨g.addedcommands, hroom⟩
  rw [if_neg (Nat.lt_irrefl _)] at hunused
  rw [defaultBranch_started, Fin.find?_eq_some_iff]
  refine ⟨decide_eq_true hunused, fun j hj => decide_eq_false fun hsame => ?_⟩
  have hother := hs j
  have hlt : j.val < g.addedcommands := hj
  rw [if_pos hlt, hsame] at hother
  have h47 : ((47 : UInt8).toNat : Int) = 47 := rfl
  omega

end Numbers

/-! ## Runs -/

section Runs

variable {shell p : Int} {t : Table Process} {h : List (Event Action)} {g : Globals}
  {choice : UInt8}

theorem start_ne_returned (command : Command) : start command ≠ .returned none := by
  dsimp only [start]
  split_ifs <;> nofun

/-- Whatever has been added and done before, the default branch is exact for every character but
'/', and for this one when all places of the table are used. -/
theorem dispatch_exact_iff (hrun : (mc2 shell).Run h t)
    (hp : t.status p = .active (.shell .menu g)) (hchoice : choice.toNat ∉ fixedOptions) :
    Exact g choice ↔ choice ≠ 47 ∨ 100 ≤ g.addedcommands := by
  have hs := run_numbered hrun hp
  constructor
  · intro hexact
    by_contra hnot
    simp only [not_or, not_not, Nat.not_le] at hnot
    obtain ⟨rfl, hroom⟩ := hnot
    have hnone : ∀ k : Fin 100, k.val < g.addedcommands →
        (g.commands k).opnum ≠ ((47 : UInt8).toNat : Int) - 48 := by
      intro k hk hid
      have hnumber := hs k
      rw [if_pos hk, hid] at hnumber
      have h47 : ((47 : UInt8).toNat : Int) = 47 := rfl
      omega
    have hreturns := (hexact.refuses hnone).2 ⟨some 47, [], [], []⟩ rfl
    have hstarts := dispatch_default (g := g) (i := ⟨some 47, [], [], []⟩) hchoice rfl
    rw [hs.find?_slash hroom, hreturns] at hstarts
    exact start_ne_returned _ (Prod.mk.inj (Option.some_inj.mp hstarts)).1.symm
  · intro hslash
    constructor
    · intro k hk hid i hi
      rw [dispatch_default hchoice hi, hs.find?_added hk hid]
    · intro hnone
      have hstarted := hs.find?_none hslash hnone
      refine ⟨answer_invalid hstarted, fun i hi => ?_⟩
      rw [dispatch_default hchoice hi, hstarted]

end Runs

/-- The command `ls /` is added. -/
def oneAdded : List (Event Action) :=
  [.act 1 (.poll none), .act 1 (.input ⟨some 97, ['l', 's', ' ', '/', '\n'], [], []⟩),
    .act 1 .loop, .act 1 (.poll none)]

theorem oneAdded_menu : ∃ t g, (mc2 1).RunIf (fun _ _ => True) oneAdded.reverse t ∧
    t.status 1 = .active (.shell .menu g) ∧ (g.addedcommands = 1 ∧ (g.commands 0).opnum = 3 ∧
      (g.commands 0).stored = (['l', 's'], ['/'])) :=
  exists_run (fun _ _ => True) (by decide +kernel)

/-- The character '3' starts this command. -/
theorem dispatch_exact_added : ∃ t g, (mc2 1).Run oneAdded.reverse t ∧
    t.status 1 = .active (.shell .menu g) ∧ (g.commands 0).opnum = 51 - 48 ∧
    (g.commands 0).stored = (['l', 's'], ['/']) ∧ Exact g 51 := by
  obtain ⟨t, g, hrun, hmenu, -, hid, hstored⟩ := oneAdded_menu
  refine ⟨t, g, hrun, hmenu, hid, hstored, ?_⟩
  exact (dispatch_exact_iff hrun hmenu (by decide)).mpr (.inl (by decide))

theorem freshShell_menu : ∃ t g, (mc2 1).RunIf (fun _ _ => True) [.act 1 (.poll none)] t ∧
    t.status 1 = .active (.shell .menu g) ∧ (g.addedcommands = 0 ∧
      (dispatch ⟨some 47, [], [], []⟩ g).map Prod.fst = some (.run [[], []])) :=
  exists_run (fun _ _ => True) (by decide +kernel)

/-- With no command added '/' runs the strings of a place that nothing has been copied to. -/
theorem slash_starts_unused : ∃ t g, (mc2 1).Run [.act 1 (.poll none)] t ∧
    t.status 1 = .active (.shell .menu g) ∧ g.addedcommands = 0 ∧
    (dispatch ⟨some 47, [], [], []⟩ g).map Prod.fst = some (.run [[], []]) ∧ ¬ Exact g 47 := by
  obtain ⟨t, g, hrun, hmenu, hadded, hplace⟩ := freshShell_menu
  refine ⟨t, g, hrun, hmenu, hadded, hplace, fun hexact => ?_⟩
  have hreturns := (hexact.refuses fun k hk => by omega).2 ⟨some 47, [], [], []⟩ rfl
  rw [hreturns] at hplace
  cases hplace

end Cs3013.Shell
