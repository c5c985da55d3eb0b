import Cs3013.Shell.Dispatch

/-!
# From the command line to `execvp`

The branch of the letter a keeps the first two words of the line in an array of two pointers, and
looks for the character '&' in all of the buffer that the line has been copied to. So `execvp` reads
on behind the array, and the flag of a command may come from an earlier line.
-/
namespace Cs3013.Shell

open Function Cs3013.Library.CText Cs3013.Library.Processes Cs3013.Library.Transition

/-- A text of words with blanks between them, and maybe before and behind them. -/
inductive Words : List (List Char) → List Char → Prop
  | nil : Words [] []
  | blank {words : List (List Char)} {text : List Char} (h : Words words text) :
      Words words (' ' :: text)
  | last {word : List Char} (hne : word ≠ []) (hblank : ' ' ∉ word) : Words [word] word
  | word {word text : List Char} {words : List (List Char)} (hne : word ≠ []) (hblank : ' ' ∉ word)
      (h : Words words text) : Words (word :: words) (word ++ ' ' :: text)

/-- The strings of an array of pointers up to the null pointer; `none` where there is none. -/
def vector : List (Option (List Char)) → Option (List (List Char))
  | [] => none
  | none :: _ => some []
  | some arg :: args => (vector args).map (arg :: ·)

/-- What `execvp` reads when the pointers `behind` follow the array `stored` in memory. -/
def execArguments (command : Command) (behind : List (Option (List Char))) :
    Option (List (List Char)) :=
  vector (some command.stored.1 :: some command.stored.2 :: behind)

/-- The line is stored, and whenever its ID is chosen later `execvp` gets its words. `steps_later`
tells which variables the process can have then. -/
def RunsAsTyped (g : Globals) (i : Input) (words : List (List Char))
    (behind : List (Option (List Char))) : Prop :=
  ∃ g', dispatch i g = some (.returned none, g') ∧ ∀ g'', Later g' g'' → ∀ choice : UInt8,
    choice.toNat = 51 + g.addedcommands → ∀ j : Input, j.choice = some choice →
      ∃ command, dispatch j g'' = some (start command, g'') ∧
        execArguments command behind = some words

section Words

variable {text rest : List Char} {words : List (List Char)} {i : Input}

theorem strtok_of_words (h : Words words text) : strtok ' ' text = words := by
  induction h with
  | nil => rfl
  | blank _ ih => rw [strtok_delim, ih]
  | last hne hblank => exact strtok_last hne hblank
  | word hne hblank _ ih => rw [strtok_word hne hblank, ih]

/-- A line that fits the buffer is what the branch works on. -/
theorem entered_of_line (hline : i.line = text ++ '\n' :: rest) (hlength : text.length ≤ 126)
    (hnewline : '\n' ∉ text) (hnul : '\x00' ∉ text) : entered i = text := by
  have hbuffer : inputBuffer i.line = text ++ ['\n'] := by
    rw [inputBuffer, hline, takeLine_of_newline hnewline rest 127 (by omega)]
  have hkeep : ∀ c ∈ text, (if c = '\n' then '\x00' else c) = id c := by
    intro c hc
    have hne : c ≠ '\n' := fun heq => hnewline (heq ▸ hc)
    rw [if_neg hne, id]
  have hsame : text.map (fun c => if c = '\n' then '\x00' else c) = text :=
    (List.map_congr_left hkeep).trans (List.map_id text)
  have hchomp : chomp (text ++ ['\n']) = text ++ ['\x00'] := by
    rw [chomp, List.map_append, hsame]
    rfl
  have hall : ∀ c ∈ text, decide (c ≠ '\x00') = true :=
    fun c hc => decide_eq_true fun heq => hnul (heq ▸ hc)
  rw [entered, hbuffer, hchomp, cString, List.takeWhile_append_of_pos hall,
    List.takeWhile_cons_of_neg (by decide), List.append_nil]

end Words

section Runs

variable {g g' g'' : Globals} {i j : Input} {words : List (List Char)} {command : Command}
  {behind : List (Option (List Char))} {choice : UInt8} {place : Place}

theorem start_injective {command' : Command} (h : start command = start command') :
    command.stored = command'.stored := by
  dsimp only [start] at h
  split_ifs at h <;> cases command <;> cases command' <;> simp_all [Prod.ext_iff]

theorem dispatch_a (hi : i.choice = some 97) :
    dispatch i g = (readcommand i g).map fun g => (.returned none, g) := by
  rw [dispatch, hi]
  rfl

/-- The branches of the fixed options with an ID start no stored command. -/
theorem dispatch_fixed (hj : j.choice = some choice) (hchoice : choice.toNat ∈ fixedOptions)
    (hid : 51 ≤ choice.toNat) : dispatch j g ≠ some (start command, g') := by
  intro h
  have hplace : ∀ args : List (List Char), args.length ≠ 2 → Place.run args ≠ start command := by
    intro args hargs heq
    dsimp only [start] at heq
    split_ifs at heq
    cases heq
    exact hargs rfl
  have hreturned : Place.returned none ≠ start command := (start_ne_returned command).symm
  have hleaving : Place.leaving ≠ start command := by
    dsimp only [start]
    split_ifs <;> nofun
  rw [dispatch, hj] at h
  dsimp only at h
  split at h
  · omega
  · omega
  · omega
  · obtain ⟨g₁, -, heq⟩ := Option.map_eq_some_iff.mp h
    exact hreturned (Prod.mk.inj heq).1
  · exact hleaving (Prod.mk.inj (Option.some_inj.mp h)).1
  · exact hreturned (Prod.mk.inj (Option.some_inj.mp h)).1
  · exact hplace _ (by decide) (Prod.mk.inj (Option.some_inj.mp h)).1
  · exact hreturned (Prod.mk.inj (Option.some_inj.mp h)).1
  · next h48 h49 h50 h97 h101 h99 h112 h114 =>
    simp only [fixedOptions, List.mem_cons, List.not_mem_nil, or_false] at hchoice
    rcases hchoice with h | h | h | h | h | h | h | h
    exacts [h48 h, h49 h, h50 h, h97 h, h99 h, h101 h, h112 h, h114 h]

/-- The branch of the letter a adds the first two words. -/
theorem dispatch_a_iff (hi : i.choice = some 97) (hwords : strtok ' ' (entered i) = words) :
    dispatch i g = some (.returned none, g') ↔ ∃ first second rest,
      words = first :: second :: rest ∧
        addcommand (first, second) (strcpy i.stale (entered i)) g = some g' := by
  rw [dispatch_a hi]
  constructor
  · intro h
    obtain ⟨g₁, hread, heq⟩ := Option.map_eq_some_iff.mp h
    cases heq
    obtain ⟨first, second, rest, htokens, hadd⟩ := readcommand_eq hread
    exact ⟨first, second, rest, hwords.symm.trans htokens, hadd⟩
  · intro h
    obtain ⟨first, second, rest, hcons, hadd⟩ := h
    have hread : readcommand i g = some g' := by
      unfold readcommand
      dsimp only
      rw [show strtok ' ' (cString (chomp (inputBuffer i.line))) = first :: second :: rest from
        hwords.trans hcons]
      exact hadd
    rw [hread]
    rfl

/-- Choosing the ID of the command that has just been added, or of any earlier one. -/
theorem dispatch_entry (hs : Numbered g) {k : Fin 100} (hk : k.val < g.addedcommands)
    (hchoice : choice.toNat = 51 + k.val) (hfixed : choice.toNat ∉ fixedOptions)
    (hj : j.choice = some choice) : dispatch j g = some (start (g.commands k), g) := by
  have hnumber := hs k
  rw [if_pos hk] at hnumber
  have hid : (g.commands k).opnum = (choice.toNat : Int) - 48 := by
    rw [hnumber, hchoice]
    omega
  rw [dispatch_default hfixed hj, hs.find?_added hk hid]

theorem execArguments_iff {first second : List Char} {rest : List (List Char)}
    (hstored : command.stored = (first, second)) :
    execArguments command behind = some (first :: second :: rest) ↔ vector behind = some rest := by
  rw [execArguments, hstored]
  simp only [vector, Option.map_map, Option.map_eq_some_iff, Function.comp, List.cons.injEq,
    true_and, exists_eq_right]

/-- What has to be there for a line to run as typed. -/
theorem RunsAsTyped.needs (hs : Numbered g) (hi : i.choice = some 97)
    (hwords : strtok ' ' (entered i) = words) (hruns : RunsAsTyped g i words behind) :
    2 ≤ words.length ∧ vector behind = some (words.drop 2) ∧ g.addedcommands < 100 ∧
      51 + g.addedcommands ∉ fixedOptions := by
  obtain ⟨g', hdispatch, hlater⟩ := hruns
  obtain ⟨first, second, rest, rfl, hadd⟩ := (dispatch_a_iff hi hwords).mp hdispatch
  obtain ⟨hroom, hadded, hcommands⟩ := addcommand_eq hadd
  obtain ⟨choice, hchoice⟩ : ∃ choice : UInt8, choice.toNat = 51 + g.addedcommands := by
    refine ⟨UInt8.ofNat (51 + g.addedcommands), ?_⟩
    rw [UInt8.toNat_ofNat']
    omega
  obtain ⟨command, hstart, harguments⟩ := hlater g' .refl choice hchoice ⟨choice, [], [], []⟩ rfl
  have hfixed : 51 + g.addedcommands ∉ fixedOptions := by
    intro hmem
    rw [← hchoice] at hmem
    exact dispatch_fixed rfl hmem (by omega) hstart
  have hk : (⟨g.addedcommands, hroom⟩ : Fin 100).val < g'.addedcommands := by
    show g.addedcommands < g'.addedcommands
    omega
  have hentry := dispatch_entry (j := ⟨choice, [], [], []⟩) (hs.add hadd) hk hchoice
    (by rwa [hchoice]) rfl
  have hsame := start_injective (Prod.mk.inj (Option.some_inj.mp (hstart.symm.trans hentry))).1
  rw [hcommands, update_self] at hsame
  exact ⟨by simp, (execArguments_iff hsame).mp harguments, hroom, hfixed⟩

theorem RunsAsTyped.of (hs : Numbered g) (hi : i.choice = some 97)
    (hwords : strtok ' ' (entered i) = words) (htwo : 2 ≤ words.length)
    (hbehind : vector behind = some (words.drop 2)) (hroom : g.addedcommands < 100)
    (hfixed : 51 + g.addedcommands ∉ fixedOptions) : RunsAsTyped g i words behind := by
  obtain ⟨first, second, rest, rfl⟩ : ∃ first second rest, words = first :: second :: rest := by
    match words, htwo with
    | first :: second :: rest, _ => exact ⟨first, second, rest, rfl⟩
  have hsome : ∃ g', addcommand (first, second) (strcpy i.stale (entered i)) g = some g' := by
    unfold addcommand
    rw [dif_pos hroom]
    exact ⟨_, rfl⟩
  obtain ⟨g', hadd⟩ := hsome
  obtain ⟨hroom, hadded, hcommands⟩ := addcommand_eq hadd
  refine ⟨g', (dispatch_a_iff hi hwords).mpr ⟨first, second, rest, rfl, hadd⟩, ?_⟩
  intro g'' hlater choice hchoice j hj
  have hk : (⟨g.addedcommands, hroom⟩ : Fin 100).val < g'.addedcommands := by
    show g.addedcommands < g'.addedcommands
    omega
  obtain ⟨hk', hsame⟩ := hlater.entry hk
  have hfixed' : choice.toNat ∉ fixedOptions := by rwa [hchoice]
  refine ⟨_, dispatch_entry (hlater.numbered (hs.add hadd)) hk' hchoice hfixed' hj, ?_⟩
  apply (execArguments_iff _).mpr hbehind
  rw [hsame, hcommands, update_self]

/-- In every state that a run reaches, a typed line is stored and runs as typed exactly when it has
two words at least, the rest of them stands behind the array `stored` as pointers with a null
pointer, there is room, and its ID is the character of no other option. -/
theorem command_runs_iff {shell p : Int} {t : Table Process} {h : List (Event Action)}
    {text rest : List Char} (hrun : (mc2 shell).Run h t)
    (hp : t.status p = .active (.shell .menu g)) (hi : i.choice = some 97)
    (hline : i.line = text ++ '\n' :: rest) (hlength : text.length ≤ 126) (hnewline : '\n' ∉ text)
    (hnul : '\x00' ∉ text) (hwords : Words words text) :
    RunsAsTyped g i words behind ↔ 2 ≤ words.length ∧ vector behind = some (words.drop 2) ∧
      g.addedcommands < 100 ∧ 51 + g.addedcommands ∉ fixedOptions := by
  have hs := run_numbered hrun hp
  have htokens : strtok ' ' (entered i) = words := by
    rw [entered_of_line hline hlength hnewline hnul]
    exact strtok_of_words hwords
  constructor
  · exact RunsAsTyped.needs hs hi htokens
  · intro hneeds
    obtain ⟨htwo, hbehind, hroom, hfixed⟩ := hneeds
    exact .of hs hi htokens htwo hbehind hroom hfixed

theorem freshShell_entry : ∃ t g, (mc2 1).RunIf (fun _ _ => True) [.act 1 (.poll none)] t ∧
    t.status 1 = .active (.shell .menu g) ∧ (g.addedcommands = 0 ∧
      (dispatch ⟨some 97, ['l', 's', '\n'], [], []⟩ g).isNone = true) :=
  exists_run (fun _ _ => True) (by decide +kernel)

/-- Two words, and a null pointer behind the array. -/
theorem command_runs_two : ∃ t g, (mc2 1).Run [.act 1 (.poll none)] t ∧
    t.status 1 = .active (.shell .menu g) ∧
    RunsAsTyped g ⟨some 97, ['l', 's', ' ', '/', '\n'], [], []⟩ [['l', 's'], ['/']] [none] := by
  obtain ⟨t, g, hrun, hmenu, hadded, -⟩ := freshShell_entry
  refine ⟨t, g, hrun, hmenu, ?_⟩
  have hwords : Words [['l', 's'], ['/']] ['l', 's', ' ', '/'] :=
    .word (by decide) (by decide) (.last (by decide) (by decide))
  rw [command_runs_iff hrun hmenu rfl rfl (by decide) (by decide) (by decide) hwords, hadded]
  exact ⟨by decide, rfl, by decide, by decide⟩

/-- One word ends the process at the null result of `strtok`; of three words the last one is
missing. -/
theorem command_lost : ∃ t g, (mc2 1).Run [.act 1 (.poll none)] t ∧
    t.status 1 = .active (.shell .menu g) ∧
    (Words [['l', 's']] ['l', 's'] ∧ dispatch ⟨some 97, ['l', 's', '\n'], [], []⟩ g = none ∧
      ∀ behind, ¬ RunsAsTyped g ⟨some 97, ['l', 's', '\n'], [], []⟩ [['l', 's']] behind) ∧
    Words [['l'], ['a'], ['b']] ['l', ' ', 'a', ' ', 'b'] ∧
      ¬ RunsAsTyped g ⟨some 97, ['l', ' ', 'a', ' ', 'b', '\n'], [], []⟩ [['l'], ['a'], ['b']]
        [none] := by
  obtain ⟨t, g, hrun, hmenu, -, hnone⟩ := freshShell_entry
  have hs := run_numbered hrun hmenu
  refine ⟨t, g, hrun, hmenu, ⟨.last (by decide) (by decide), Option.isNone_iff_eq_none.mp hnone,
    fun behind hruns => ?_⟩, ?_, fun hruns => ?_⟩
  · obtain ⟨g', hdispatch, -⟩ := hruns
    rw [hdispatch] at hnone
    cases hnone
  · exact .word (by decide) (by decide)
      (.word (by decide) (by decide) (.last (by decide) (by decide)))
  · have hneeds := hruns.needs hs rfl (by decide +kernel)
    exact absurd hneeds.2.1 (by decide)

end Runs

/-! ## The flag -/

section Flags

variable {g g' g'' : Globals} {i : Input} {inputs : List Input} {text stale : List Char}

/-- What the array `name` holds behind the end of the string. -/
def leftover (i : Input) : List Char :=
  (i.stale.drop ((entered i).length + 1)).take (127 - (entered i).length)

/-- Lines that are added one after the other. -/
def readcommands (inputs : List Input) (g : Globals) : Option Globals :=
  inputs.foldlM (fun g i => readcommand i g) g

theorem length_entered (i : Input) : (entered i).length ≤ 127 := by
  calc (entered i).length ≤ (chomp (inputBuffer i.line)).length :=
        (List.takeWhile_prefix _).length_le
    _ = (inputBuffer i.line).length := List.length_map _
    _ ≤ 127 := length_takeLine_le 127 _

/-- The scan finds the character in the line or behind it. -/
theorem isbackground_strcpy (i : Input) : isbackground (strcpy i.stale (entered i)) = true ↔
    '&' ∈ entered i ∨ '&' ∈ leftover i := by
  have hlength := length_entered i
  have htake : (strcpy i.stale (entered i)).take 128 = entered i ++ '\x00' :: leftover i := by
    rw [strcpy, List.take_append, List.take_of_length_le (by omega), leftover,
      show 128 - (entered i).length = 127 - (entered i).length + 1 by omega, List.take_succ_cons]
  rw [isbackground, htake, List.contains_iff_mem, List.mem_append, List.mem_cons]
  constructor
  · intro hmem
    rcases hmem with hmem | hmem | hmem
    · exact .inl hmem
    · cases hmem
    · exact .inr hmem
  · intro hmem
    exact hmem.imp_right .inr

/-- One added line, at any later time. -/
theorem readcommand_flag (hread : readcommand i g = some g') (hlater : Later g' g'') :
    ∃ k : Fin 100, k.val = g.addedcommands ∧
      (((g''.commands k).background = 1 ↔ '&' ∈ entered i) ↔
        ('&' ∈ entered i ∨ '&' ∉ leftover i)) := by
  obtain ⟨first, second, rest, -, hadd⟩ := readcommand_eq hread
  obtain ⟨hroom, hadded, hcommands⟩ := addcommand_eq hadd
  have hk : (⟨g.addedcommands, hroom⟩ : Fin 100).val < g'.addedcommands := by
    show g.addedcommands < g'.addedcommands
    omega
  refine ⟨⟨g.addedcommands, hroom⟩, rfl, ?_⟩
  have hflag : (g''.commands ⟨g.addedcommands, hroom⟩).background = 1 ↔
      '&' ∈ entered i ∨ '&' ∈ leftover i := by
    rw [(hlater.entry hk).2, hcommands, update_self, ← isbackground_strcpy]
    simp
  rw [hflag]
  by_cases hline : '&' ∈ entered i
  · simp [hline]
  · simp [hline]

theorem readcommands_later (hread : readcommands inputs g = some g') : Later g g' := by
  induction inputs generalizing g with
  | nil =>
    cases hread
    exact .refl
  | cons i inputs ih =>
    rw [readcommands, List.foldlM_cons] at hread
    obtain ⟨g₁, hfirst, hrest⟩ := Option.bind_eq_some_iff.mp hread
    exact (readcommand_later hfirst).trans (ih hrest)

/-- Whatever lines have been added and whatever the buffer held, the flag of a line is right exactly
when the line has the character '&' or nothing behind it in the buffer has. -/
theorem background_flags_iff (hread : readcommands inputs g = some g') (hlater : Later g' g'') :
    ∀ j (hj : j < inputs.length), ∃ k : Fin 100, k.val = g.addedcommands + j ∧
      (((g''.commands k).background = 1 ↔ '&' ∈ entered inputs[j]) ↔
        ('&' ∈ entered inputs[j] ∨ '&' ∉ leftover inputs[j])) := by
  induction inputs generalizing g with
  | nil =>
    intro j hj
    exact absurd hj (Nat.not_lt_zero j)
  | cons i inputs ih =>
    rw [readcommands, List.foldlM_cons] at hread
    obtain ⟨g₁, hfirst, hrest⟩ := Option.bind_eq_some_iff.mp hread
    obtain ⟨first, second, rest, -, hadd⟩ := readcommand_eq hfirst
    obtain ⟨-, hadded, -⟩ := addcommand_eq hadd
    intro j hj
    cases j with
    | zero => exact readcommand_flag hfirst ((readcommands_later hrest).trans hlater)
    | succ j =>
      obtain ⟨k, hk, hflag⟩ := ih hrest j (Nat.lt_of_succ_lt_succ hj)
      exact ⟨k, by omega, hflag⟩

/-- The name of a command is its line. -/
theorem cString_strcpy (i : Input) : cString (strcpy i.stale (entered i)) = entered i := by
  have hall : ∀ c ∈ entered i, decide (c ≠ '\x00') = true := by
    intro c hc
    exact List.mem_takeWhile_imp (p := fun c => decide (c ≠ '\x00')) hc
  rw [cString, strcpy, List.takeWhile_append_of_pos hall, List.takeWhile_cons_of_neg (by decide),
    List.append_nil]

/-- The flag of every added command tells whether its line has the character '&'. -/
def FlagsRight (g : Globals) : Prop :=
  ∀ k : Fin 100, k.val < g.addedcommands →
    ((g.commands k).background = 1 ↔ '&' ∈ (g.commands k).commandname)

/-- The event adds no line that finds the character behind itself only. -/
def FlagsLine : Event Action → Prop
  | .act _ (.input i) => i.choice = some 97 → '&' ∈ entered i ∨ '&' ∉ leftover i
  | _ => True

theorem FlagsRight.add (hs : FlagsRight g) (hi : '&' ∈ entered i ∨ '&' ∉ leftover i)
    (hread : readcommand i g = some g') : FlagsRight g' := by
  obtain ⟨first, second, rest, -, hadd⟩ := readcommand_eq hread
  obtain ⟨hroom, hadded, hcommands⟩ := addcommand_eq hadd
  intro k hk
  by_cases hlast : k = ⟨g.addedcommands, hroom⟩
  · obtain ⟨k', hk', hflag⟩ := readcommand_flag hread .refl
    obtain rfl : k = k' := hlast.trans (Fin.ext hk'.symm)
    rw [hflag.mpr hi, hcommands, hlast, update_self, cString_strcpy]
  · have hval : k.val ≠ g.addedcommands := fun h => hlast (Fin.ext h)
    rw [hcommands, update_of_ne hlast]
    exact hs k (by omega)

/-- In every run that adds no such line, the flags are right in every process. -/
theorem run_flags {shell p : Int} {t : Table Process} {h : List (Event Action)} {place : Place}
    (hrun : (mc2 shell).RunIf (fun _ e => FlagsLine e) h t)
    (hp : t.status p = .active (.shell place g)) : FlagsRight g := by
  apply run_entries (I := FlagsRight) hrun _ _ _ p place g hp
  · intro commands _ k hk
    exact absurd hk (Nat.not_lt_zero _)
  · intro g g' hs hcommands hadded k hk
    rw [hcommands]
    exact hs k (by omega)
  · intro _ _ i g g' hok hi hread hs
    exact hs.add (hok hi) hread

/-- A line with the character, and a shorter one in a buffer that still has it. -/
def staleLines : List Input :=
  [⟨some 97, ['l', 's', ' ', '/', ' ', '&', '\n'], [], []⟩,
    ⟨some 97, ['p', ' ', 'x', '\n'], [], strcpy [] ['l', 's', ' ', '/', ' ', '&']⟩]

def emptyTable : Globals := startup fun _ => ⟨([], []), [], -1, 0⟩

theorem staleLines_read : ∃ g, readcommands staleLines emptyTable = some g ∧
    (g.commands 0).background = 1 ∧ (g.commands 1).background = 1 := by
  have hread : (readcommands staleLines emptyTable).any (fun g =>
      decide ((g.commands 0).background = 1 ∧ (g.commands 1).background = 1)) = true := by
    decide +kernel
  obtain ⟨g, hg, hflags⟩ := (Option.any_eq_true _ _).mp hread
  exact ⟨g, hg, of_decide_eq_true hflags⟩

/-- The flag of the first line is right. -/
theorem background_flags_first : ∃ g, readcommands staleLines emptyTable = some g ∧
    ∃ k : Fin 100, k.val = 0 ∧ ((g.commands k).background = 1 ↔ '&' ∈ entered staleLines[0]) := by
  obtain ⟨g, hread, -⟩ := staleLines_read
  obtain ⟨k, hk, hflag⟩ := background_flags_iff hread .refl 0 (by decide)
  exact ⟨g, hread, k, hk, hflag.mpr (.inl (by decide +kernel))⟩

/-- The second line has no '&' and is marked for the background by what is left of the first. -/
theorem background_stale : ∃ g, readcommands staleLines emptyTable = some g ∧
    (g.commands 1).background = 1 ∧ entered staleLines[1] = ['p', ' ', 'x'] ∧
    ¬ ((g.commands 1).background = 1 ↔ '&' ∈ entered staleLines[1]) := by
  obtain ⟨g, hread, -, hflag⟩ := staleLines_read
  have hentered : entered staleLines[1] = ['p', ' ', 'x'] := by decide +kernel
  refine ⟨g, hread, hflag, hentered, fun hiff => ?_⟩
  have hmem := hiff.mp hflag
  rw [hentered] at hmem
  exact absurd hmem (by decide)

end Flags

end Cs3013.Shell
