import Cs3013.Shell.Reaping

/-!
# The table of added commands

A command is added behind the others and is never changed again; its ID is its place plus three. A
place that no command has taken has the ID -1. This holds in the shell and in every copy of it.
-/
namespace Cs3013.Shell

open Function Cs3013.Library.CText Cs3013.Library.Processes Cs3013.Library.Transition

/-- The variables at a later time, of the same process or of a copy. -/
inductive Later (g : Globals) : Globals → Prop
  | refl : Later g g
  | keep {g₁ g₂ : Globals} (h : Later g g₁) (hcommands : g₂.commands = g₁.commands)
      (hadded : g₂.addedcommands = g₁.addedcommands) : Later g g₂
  | add {g₁ g₂ : Globals} {command : List Char × List Char} {name : List Char} (h : Later g g₁)
      (hadd : addcommand command name g₁ = some g₂) : Later g g₂

/-- The IDs in the table. -/
def Numbered (g : Globals) : Prop :=
  ∀ k : Fin 100, (g.commands k).opnum = if k.val < g.addedcommands then 3 + (k.val : Int) else -1

/-- The string that the branch of the letter a works on. -/
def entered (i : Input) : List Char := cString (chomp (inputBuffer i.line))

section Entries

variable {g g' g'' : Globals} {command : List Char × List Char} {name : List Char} {i : Input}
  {place : Place} {k : Fin 100}

theorem addcommand_eq (h : addcommand command name g = some g') :
    ∃ hroom : g.addedcommands < 100, g'.addedcommands = g.addedcommands + 1 ∧
      g'.commands = update g.commands ⟨g.addedcommands, hroom⟩
        ⟨command, cString name, 3 + g.addedcommands, if isbackground name then 1 else 0⟩ := by
  unfold addcommand at h
  split at h
  · next hroom =>
    cases h
    exact ⟨hroom, rfl, rfl⟩
  · cases h

theorem readcommand_eq (h : readcommand i g = some g') : ∃ first second rest,
    strtok ' ' (entered i) = first :: second :: rest ∧
      addcommand (first, second) (strcpy i.stale (entered i)) g = some g' := by
  unfold readcommand at h
  dsimp only at h
  split at h
  · next first second rest htokens => exact ⟨first, second, rest, htokens, h⟩
  · cases h

theorem Numbered.add (hs : Numbered g) (h : addcommand command name g = some g') :
    Numbered g' := by
  obtain ⟨hroom, hadded, hcommands⟩ := addcommand_eq h
  intro k
  rw [hcommands, hadded]
  by_cases hk : k = ⟨g.addedcommands, hroom⟩
  · rw [hk, update_self, if_pos (Nat.lt_succ_self _)]
  · have hval : k.val ≠ g.addedcommands := fun h => hk (Fin.ext h)
    rw [update_of_ne hk, hs k]
    apply if_congr _ rfl rfl
    omega

theorem Later.numbered (h : Later g g') (hs : Numbered g) : Numbered g' := by
  induction h with
  | refl => exact hs
  | keep _ hcommands hadded ih =>
    intro k
    rw [hcommands, hadded]
    exact ih k
  | add _ hadd ih => exact ih.add hadd

/-- An entry that is there stays as it is. -/
theorem Later.entry (h : Later g g') (hk : k.val < g.addedcommands) :
    k.val < g'.addedcommands ∧ g'.commands k = g.commands k := by
  induction h with
  | refl => exact ⟨hk, rfl⟩
  | keep _ hcommands hadded ih =>
    rw [hcommands, hadded]
    exact ih
  | add _ hadd ih =>
    obtain ⟨hroom, hadded, hcommands⟩ := addcommand_eq hadd
    have hne : k ≠ ⟨_, hroom⟩ := fun h => absurd (congrArg Fin.val h) (Nat.ne_of_lt ih.1)
    rw [hcommands, hadded, update_of_ne hne]
    exact ⟨Nat.lt_succ_of_lt ih.1, ih.2⟩

theorem Later.trans (h : Later g g') (h' : Later g' g'') : Later g g'' := by
  induction h' with
  | refl => exact h
  | keep _ hcommands hadded ih => exact .keep ih hcommands hadded
  | add _ hadd ih => exact .add ih hadd

/-- Only the letter a adds a command. -/
theorem dispatch_entries (h : dispatch i g = some (place, g')) :
    g' = g ∨ i.choice = some 97 ∧ readcommand i g = some g' := by
  unfold dispatch at h
  split at h
  · cases h
    exact .inl rfl
  · next choice hchoice =>
    split at h
    case h_4 =>
      next ha =>
      obtain ⟨g₁, hg, heq⟩ := Option.map_eq_some_iff.mp h
      cases heq
      exact .inr ⟨hchoice.trans (congrArg some (UInt8.toNat_inj.mp ha)), hg⟩
    case h_9 =>
      left
      split at h
      · dsimp only at h
        split_ifs at h <;> cases h <;> rfl
      · cases h
        rfl
    all_goals cases h; exact .inl rfl

end Entries

section Moves

variable {shell p c : Int} {t u : Table Process} {e : Event Action} {a b : Process} {l : Action}
  {x : Call Process} {place place' : Place} {g g' : Globals} {h : List (Event Action)}

/-- What a step does to the table of added commands: nothing, or it adds a line. -/
theorem move_entries (h : Move (.shell place g) l x) (hnext : .shell place' g' = x.next) :
    (g'.commands = g.commands ∧ g'.addedcommands = g.addedcommands) ∨
      ∃ i, l = .input i ∧ i.choice = some 97 ∧ readcommand i g = some g' := by
  cases h with
  | remove hr =>
    obtain ⟨rfl, -⟩ := prompt_cases hnext
    exact .inl ⟨rfl, rfl⟩
  | poll =>
    obtain ⟨rfl, -⟩ := prompt_cases hnext
    exact .inl ⟨rfl, rfl⟩
  | input hi =>
    cases hnext
    rcases dispatch_entries hi with rfl | hread
    · exact .inl ⟨rfl, rfl⟩
    · exact .inr ⟨_, rfl, hread⟩
  | loop hr =>
    obtain ⟨rfl, -⟩ := again_cases hnext
    exact .inl ⟨rfl, rfl⟩
  | execvp => cases hnext
  | _ =>
    cases hnext
    exact .inl ⟨rfl, rfl⟩

/-- A new process has the table of its parent. -/
theorem move_copy (h : Move (.shell place g) l (.fork c b (.shell place' g'))) : g' = g := by
  cases h <;> rfl

/-- The invariant rule for the table of added commands, in all processes at once. -/
theorem run_entries {ok : Table Process → Event Action → Prop} {I : Globals → Prop}
    (hrun : (mc2 shell).RunIf ok h t)
    (hinit : ∀ commands : Fin 100 → Command, (∀ k, (commands k).opnum = -1) → I (startup commands))
    (hkeep : ∀ g g' : Globals, I g → g'.commands = g.commands →
      g'.addedcommands = g.addedcommands → I g')
    (hadd : ∀ t p i g g', ok t (.act p (.input i)) → i.choice = some 97 →
      readcommand i g = some g' → I g → I g') :
    ∀ p place g, t.status p = .active (.shell place g) → I g := by
  apply hrun.stateInvariant (I := fun t => ∀ p place g,
    t.status p = .active (.shell place g) → I g)
  · intro _ hstart p place g hp
    obtain ⟨-, commands, hcommands, rfl⟩ := hstart
    by_cases hshell : p = shell
    · subst hshell
      cases (Table.single_status _).symm.trans hp
      exact hinit commands fun k => (hcommands k).1
    · rw [Table.single_absent hshell] at hp
      cases hp
  · intro t e u hs hok hstep p place g hu
    rcases (step_change hstep p).active hu with hsame | hacts | hnew
    · exact hs p place g hsame.1
    · obtain ⟨a, l, x, rfl, ha, hx, -, hnext⟩ := hacts
      cases a with
      | program args => cases move_of_code hx
      | shell place' g' =>
        rcases move_entries (move_of_code hx) hnext with hsame | hread
        · exact hkeep g' g (hs p place' g' ha) hsame.1 hsame.2
        · obtain ⟨i, rfl, hi, hread⟩ := hread
          exact hadd t p i g' g hok hi hread (hs p place' g' ha)
    · obtain ⟨q, a, l, b', rfl, ha, hx, -⟩ := hnew
      cases a with
      | program args => cases move_of_code hx
      | shell place' g' =>
        rw [move_copy (move_of_code hx)]
        exact hs q place' g' ha

/-- In every run the commands of every process that executes the shell's code are numbered. -/
theorem run_numbered (hrun : (mc2 shell).Run h t)
    (hp : t.status p = .active (.shell place g)) : Numbered g := by
  apply run_entries (I := Numbered) hrun _ _ _ p place g hp
  · intro commands hcommands k
    exact (hcommands k).trans (if_neg (Nat.not_lt_zero _)).symm
  · intro g g' hs hcommands hadded k
    rw [hcommands, hadded]
    exact hs k
  · intro _ _ i g g' _ _ hread hs
    obtain ⟨first, second, rest, -, hadd⟩ := readcommand_eq hread
    exact hs.add hadd

theorem readcommand_later {i : Input} (hread : readcommand i g = some g') : Later g g' := by
  obtain ⟨first, second, rest, -, hadd⟩ := readcommand_eq hread
  exact .add .refl hadd

theorem move_later (h : Move (.shell place g) l x) (hnext : .shell place' g' = x.next) :
    Later g g' := by
  rcases move_entries h hnext with hsame | hread
  · exact .keep .refl hsame.1 hsame.2
  · obtain ⟨i, -, -, hread⟩ := hread
    exact readcommand_later hread

/-- What a process has in its table it still has after any steps of the processes. -/
theorem steps_later {ok : Table Process → Event Action → Prop}
    (hsteps : (mc2 shell).Steps ok t h u) (hp : t.status p = .active (.shell place g))
    (hu : u.status p = .active (.shell place' g')) : Later g g' := by
  have hinv : u.Created p ∧ ∀ place' g', u.status p = .active (.shell place' g') → Later g g' := by
    apply hsteps.invariant (I := fun _ u => u.Created p ∧ ∀ place' g',
      u.status p = .active (.shell place' g') → Later g g')
    · refine ⟨Table.created_of_active hp, fun place' g' hp' => ?_⟩
      cases hp.symm.trans hp'
      exact .refl
    · intro _ t e u hinv _ hstep
      refine ⟨((step_change hstep p).created hinv.1).1, fun place' g' hu => ?_⟩
      rcases (step_change hstep p).active_of_created hinv.1 hu with hsame | hacts
      · exact hinv.2 place' g' hsame.1
      · obtain ⟨a, l, x, rfl, ha, hx, -, hnext⟩ := hacts
        cases a with
        | shell place g => exact (hinv.2 place g ha).trans (move_later (move_of_code hx) hnext)
        | program args => cases move_of_code hx
  exact hinv.2 place' g' hu

end Moves

end Cs3013.Shell
