import Cs3013.Library.CText
import Cs3013.Memory.Commands

/-!
# The instructions that main reads

`main` takes a line apart at its commas, reads the process from one character and both numbers
into unsigned bytes, and checks them only then. What the second field selects stays selected for
the next line. The grammar that the instructions are meant to have is stated for itself, and the
lines on which the two agree are found exactly. A character is a byte, so the length of a line is
the number of its bytes.
-/
namespace Cs3013.Memory

open Cs3013.Library.Faulting Cs3013.Library.CText

/-! ## The code -/

/-- What `main` prints about a line that it refuses. -/
inductive Notice where
  | pid
  | vaddr
  | val
  | improper
  deriving DecidableEq, Repr

def Notice.text : Notice → String
  | .pid => "Error process id is not valid, try again \n"
  | .vaddr => "Virtual address is not valid, try again \n"
  | .val => "Incorrect value, try again"
  | .improper => "Error input was not proper try again\n"

/-- One pass of the loop: the variable `choice` afterwards, the notices, and the call of `map`,
`store` or `load`. -/
structure Turn where
  choice : UInt8
  notices : List Notice
  issued : Option Cmd
  deriving DecidableEq, Repr

/-- `token[0]` as an unsigned byte. -/
def firstByte (token : List Char) : UInt8 := UInt8.ofNat (token.headD '\x00').toNat

/-- The `if` statements over the first character of the second token. -/
def select (choice : UInt8) (op : Char) : UInt8 :=
  if op = 'm' then 0 else if op = 's' then 1 else if op = 'l' then 2 else choice

/-- The three checks of the fields. -/
def checks (pid vaddr val : UInt8) : List Notice :=
  (if pid > 3 then [.pid] else []) ++ (if vaddr > 63 then [.vaddr] else []) ++
    if val.toNat > 255 then [.val] else []

/-- The cases of the switch with a call. -/
def switch (choice : UInt8) (pid : Fin 4) (vaddr : Fin 64) (val : UInt8) : Option Cmd :=
  match choice.toNat with
  | 0 => some (.map pid vaddr val)
  | 1 => some (.store pid vaddr val)
  | 2 => some (.load pid vaddr val)
  | _ => none

/-- The checks and the switch. -/
def obey (choice pid vaddr val : UInt8) : Turn :=
  let notices := checks pid vaddr val
  let choice := if notices = [] then choice else 3
  if h : pid.toNat < 4 ∧ vaddr.toNat < 64 then
    ⟨choice, if choice > 3 then notices ++ [.improper] else notices,
      switch choice ⟨pid.toNat, h.1⟩ ⟨vaddr.toNat, h.2⟩ val⟩
  else
    -- the checks have set `choice` to 3
    ⟨choice, notices, none⟩

/-- The test of the inner loop: `str` is empty or has one character. -/
def skips (str : List Char) : Bool :=
  match cString str with
  | [] => true
  | [_] => true
  | c :: d :: _ => c = '\n' || d = '\n'

/-- What a line read into `str` does; `none` where a token is the null pointer. -/
def turn (choice : UInt8) (str : List Char) : Option Turn :=
  if skips str then
    some ⟨choice, [], none⟩
  else
    match strtok ',' (cString str) with
    | pid :: op :: vaddr :: val :: _ =>
      some (obey (select choice (op.headD '\x00')) (firstByte pid - 48) (UInt8.ofInt (atoi vaddr))
        (UInt8.ofInt (atoi val)))
    | _ => none

/-- What the calls of `fgets` store in `str`, one after the other. -/
def strings (stdin : List Char) : List (List Char) :=
  match _h : fgets 20 stdin with
  | none => []
  | some (str, rest) => str :: strings rest
termination_by stdin.length
decreasing_by exact length_fgets_lt (by decide) _h

def issue (issued : Option Cmd) : M Unit :=
  match issued with
  | some cmd => do
    let _ ← exec cmd
  | none => return ()

/-- The loop of `main`. -/
def instructions (choice : UInt8) : List (List Char) → M Unit
  | [] => return ()
  | str :: strs =>
    match turn choice str with
    | none => throw .token
    | some t => do
      issue t.issued
      instructions t.choice strs

/-- `main`, from the state `startup`. -/
def main (stdin : List Char) : M Unit := instructions 255 (strings stdin)

/-! ## The grammar -/

def Cmd.vaddr : Cmd → Fin 64
  | .map _ vaddr _ => vaddr
  | .store _ vaddr _ => vaddr
  | .load _ vaddr _ => vaddr

def Cmd.val : Cmd → UInt8
  | .map _ _ val => val
  | .store _ _ val => val
  | .load _ _ val => val

def Cmd.letter : Cmd → Char
  | .map _ _ _ => 'm'
  | .store _ _ _ => 's'
  | .load _ _ _ => 'l'

/-- A decimal number. -/
def Number (text : List Char) (n : Nat) : Prop := Digits text ∧ natOfDigits text = n

instance (text : List Char) (n : Nat) : Decidable (Number text n) :=
  inferInstanceAs (Decidable (_ ∧ _))

/-- The line is `pid,op,vaddr,val`, and this is the command. -/
structure Form (line : List Char) (cmd : Cmd) (pid op vaddr val : List Char) : Prop where
  fields : line = pid ++ ',' :: (op ++ ',' :: (vaddr ++ ',' :: val))
  process : Number pid cmd.pid.val
  letter : op.head? = some cmd.letter
  comma : ',' ∉ op
  address : Number vaddr cmd.vaddr.val
  byte : Number val cmd.val.toNat

/-- The line stands for the command. -/
def Accepts (line : List Char) (cmd : Cmd) : Prop :=
  ∃ pid op vaddr val, Form line cmd pid op vaddr val

/-- The code gets through the line and issues the command that the line stands for, or none. -/
def Exact (choice : UInt8) (line : List Char) : Prop :=
  ∃ t, turn choice (line ++ ['\n']) = some t ∧ ∀ cmd, t.issued = some cmd ↔ Accepts line cmd

/-! ## When they agree -/

/-- The code finds four tokens and refuses the first, the third, or the second when no earlier
line has left a command selected. -/
def Refused (choice : UInt8) (line : List Char) : Prop :=
  match strtok ',' (cString (line ++ ['\n'])) with
  | pid :: op :: vaddr :: _ :: _ => 3 < firstByte pid - 48 ∨ 63 < UInt8.ofInt (atoi vaddr) ∨
      2 < select choice (op.headD '\x00')
  | _ => False

/-- A line of the grammar whose first character is already the number of the process. -/
def Plain (line : List Char) : Prop :=
  ∃ cmd pid op vaddr val, Form line cmd pid op vaddr val ∧ '\x00' ∉ op ∧
    (pid.headD '\x00').toNat = 48 + cmd.pid.val

/-- The lines that the code reads as the grammar does. -/
def Readable (choice : UInt8) (line : List Char) : Prop :=
  (cString line).length < 2 ∨ Refused choice line ∨ Plain line

section Lines

variable {line pid op vaddr val : List Char} {cmd cmd' : Cmd} {choice p v b : UInt8}

theorem Cmd.ext_fields (hletter : cmd.letter = cmd'.letter) (hpid : cmd.pid.val = cmd'.pid.val)
    (hvaddr : cmd.vaddr.val = cmd'.vaddr.val) (hval : cmd.val.toNat = cmd'.val.toNat) :
    cmd = cmd' := by
  have hp := Fin.ext hpid
  have hv := Fin.ext hvaddr
  have hb := UInt8.toNat_inj.mp hval
  cases cmd <;> cases cmd' <;>
    simp_all [Cmd.letter, Cmd.pid, Cmd.vaddr, Cmd.val]

/-! ## The switch -/

theorem checks_nil (hp : p.toNat < 4) (hv : v.toNat < 64) : checks p v b = [] := by
  have hp' : ¬ p > 3 := by
    intro h
    have h3 : 3 < p.toNat := UInt8.lt_iff_toNat_lt.mp h
    omega
  have hv' : ¬ v > 63 := by
    intro h
    have h63 : 63 < v.toNat := UInt8.lt_iff_toNat_lt.mp h
    omega
  have hb' : ¬ b.toNat > 255 := by
    have := b.toNat_lt
    omega
  rw [checks, if_neg hp', if_neg hv', if_neg hb']
  rfl

/-- The call that `obey` makes once the checks are passed. -/
theorem obey_issued (h : p.toNat < 4 ∧ v.toNat < 64) :
    (obey choice p v b).issued = switch choice ⟨p.toNat, h.1⟩ ⟨v.toNat, h.2⟩ b := by
  rw [obey, checks_nil h.1 h.2, if_pos rfl, dif_pos h]

/-- `obey` makes the call that its arguments spell. -/
theorem obey_issues (hp : p.toNat = cmd.pid.val) (hv : v.toNat = cmd.vaddr.val)
    (hb : b.toNat = cmd.val.toNat) :
    (obey (select choice cmd.letter) p v b).issued = some cmd := by
  have hlt : p.toNat < 4 ∧ v.toNat < 64 := by omega
  rw [obey_issued hlt]
  cases cmd with
  | map q w x => exact congrArg some (Cmd.ext_fields rfl hp hv hb)
  | store q w x => exact congrArg some (Cmd.ext_fields rfl hp hv hb)
  | load q w x => exact congrArg some (Cmd.ext_fields rfl hp hv hb)

theorem switch_pid {q : Fin 4} {w : Fin 64} (h : switch choice q w b = some cmd) : cmd.pid = q := by
  unfold switch at h
  split at h
  · cases h
    rfl
  · cases h
    rfl
  · cases h
    rfl
  · cases h

theorem switch_none_iff {q : Fin 4} {w : Fin 64} : switch choice q w b = none ↔ 2 < choice := by
  have h2 : 2 < choice ↔ 2 < choice.toNat := UInt8.lt_iff_toNat_lt
  rw [h2, switch]
  split
  · next h => simp [h]
  · next h => simp [h]
  · next h => simp [h]
  · next h0 h1 h2 =>
    have h0' : choice.toNat ≠ 0 := h0
    have h1' : choice.toNat ≠ 1 := h1
    have h2' : choice.toNat ≠ 2 := h2
    simp only [true_iff]
    omega

theorem obey_none_iff : (obey choice p v b).issued = none ↔ 3 < p ∨ 63 < v ∨ 2 < choice := by
  have h3 : 3 < p ↔ 3 < p.toNat := UInt8.lt_iff_toNat_lt
  have h63 : 63 < v ↔ 63 < v.toNat := UInt8.lt_iff_toNat_lt
  rw [h3, h63]
  by_cases hlt : p.toNat < 4 ∧ v.toNat < 64
  · have hp : ¬ 3 < p.toNat := by omega
    have hv : ¬ 63 < v.toNat := by omega
    rw [obey_issued hlt, switch_none_iff]
    simp only [hp, hv, false_or]
  · rw [obey, dif_neg hlt]
    simp only [true_iff]
    omega

theorem obey_pid (h : (obey choice p v b).issued = some cmd) : cmd.pid.val = p.toNat := by
  by_cases hlt : p.toNat < 4 ∧ v.toNat < 64
  · rw [obey_issued hlt] at h
    exact congrArg Fin.val (switch_pid h)
  · rw [obey, dif_neg hlt] at h
    cases h

/-! ## The tokens -/

theorem not_mem_of_digits {text : List Char} {c : Char} (h : Digits text)
    (hc : c.isDigit = false) : c ∉ text := by
  intro hmem
  rw [h.2 c hmem] at hc
  cases hc

theorem cString_of_not_mem {text : List Char} (h : '\x00' ∉ text) : cString text = text := by
  apply List.takeWhile_eq_self_iff.mpr
  intro c hc
  exact decide_eq_true fun heq => h (heq ▸ hc)

/-- A line of text has the string of its buffer cut at most, and the newline goes first. -/
theorem skips_iff (hline : '\n' ∉ line) :
    skips (line ++ ['\n']) = true ↔ (cString line).length < 2 := by
  cases line with
  | nil => decide
  | cons c rest =>
    have hc : c ≠ '\n' := fun h => hline (by simp [h])
    by_cases hnul : c = '\x00'
    · simp [skips, cString, hnul]
    · cases rest with
      | nil => simp [skips, cString, hnul]
      | cons d rest =>
        have hd : d ≠ '\n' := fun h => hline (by simp [h])
        by_cases hnul' : d = '\x00'
        · simp [skips, cString, hnul, hnul']
        · simp [skips, cString, hnul, hnul', hc, hd]

namespace Form

variable (h : Form line cmd pid op vaddr val)

include h

theorem op_cons : ∃ text, op = cmd.letter :: text := by
  have hletter := h.letter
  cases op with
  | nil => cases hletter
  | cons c text => exact ⟨text, congrArg (· :: text) (Option.some_inj.mp hletter)⟩

theorem pid_cons : ∃ c text, pid = c :: text := List.exists_cons_of_ne_nil h.process.1.1

/-- The fields are the tokens, the last one with the newline. -/
theorem tokens : strtok ',' (line ++ ['\n']) = [pid, op, vaddr, val ++ ['\n']] := by
  obtain ⟨text, hop⟩ := h.op_cons
  have hne : op ≠ [] := by
    rw [hop]
    exact List.cons_ne_nil _ _
  have hlast : ',' ∉ val ++ ['\n'] := by
    rw [List.mem_append, not_or]
    exact ⟨not_mem_of_digits h.byte.1 (by decide), by decide⟩
  have hline : line ++ ['\n'] =
      pid ++ ',' :: (op ++ ',' :: (vaddr ++ ',' :: (val ++ ['\n']))) := by
    rw [h.fields]
    simp only [List.append_assoc, List.cons_append]
  rw [hline, strtok_word h.process.1.1 (not_mem_of_digits h.process.1 (by decide)),
    strtok_word hne h.comma, strtok_word h.address.1.1 (not_mem_of_digits h.address.1 (by decide)),
    strtok_last (by simp) hlast]

theorem not_nul (hnul : '\x00' ∉ op) : '\x00' ∉ line ++ ['\n'] := by
  have hdigit : ∀ {text : List Char}, Digits text → '\x00' ∉ text :=
    fun hd => not_mem_of_digits hd (by decide)
  rw [h.fields]
  simp only [List.mem_append, List.mem_cons, List.not_mem_nil, hdigit h.process.1, hnul,
    hdigit h.address.1, hdigit h.byte.1]
  decide

/-- A null character in the second field hides the last two. -/
theorem tokens_nul (hnul : '\x00' ∈ op) :
    ∃ word, strtok ',' (cString (line ++ ['\n'])) = [pid, word] := by
  obtain ⟨text, hop⟩ := h.op_cons
  have hpid : ∀ c ∈ pid, decide (c ≠ '\x00') = true := by
    intro c hc
    exact decide_eq_true fun heq => not_mem_of_digits h.process.1 (by decide) (heq ▸ hc)
  have hcut : ∀ rest, (op ++ rest).takeWhile (· ≠ '\x00') = op.takeWhile (· ≠ '\x00') := by
    intro rest
    rw [List.takeWhile_append, if_neg]
    intro hlen
    have hself := (List.takeWhile_prefix (fun c : Char => decide (c ≠ '\x00'))).eq_of_length hlen
    have hall := List.takeWhile_eq_self_iff.mp hself _ hnul
    exact of_decide_eq_true hall rfl
  have hletter : cmd.letter ≠ '\x00' := by
    cases cmd <;> simp [Cmd.letter]
  have hword : op.takeWhile (· ≠ '\x00') ≠ [] := by
    rw [hop, List.takeWhile_cons, if_pos (by simpa using hletter)]
    exact List.cons_ne_nil _ _
  have hcomma : ',' ∉ op.takeWhile (· ≠ '\x00') :=
    fun hc => h.comma ((List.takeWhile_prefix _).subset hc)
  have hstring : cString (line ++ ['\n']) = pid ++ ',' :: op.takeWhile (· ≠ '\x00') := by
    rw [h.fields, cString, List.append_assoc, List.takeWhile_append_of_pos hpid, List.cons_append,
      List.takeWhile_cons_of_pos (by decide), List.append_assoc, hcut]
  refine ⟨op.takeWhile (· ≠ '\x00'), ?_⟩
  rw [hstring, strtok_word h.process.1.1 (not_mem_of_digits h.process.1 (by decide)),
    strtok_last hword hcomma]

/-- The line has a process and a comma at least. -/
theorem two_le_length : 2 ≤ (cString line).length := by
  obtain ⟨c, text, hpid⟩ := h.pid_cons
  have hall : ∀ d ∈ pid ++ [','], decide (d ≠ '\x00') = true := by
    intro d hd
    rcases List.mem_append.mp hd with hd | hd
    · exact decide_eq_true fun heq => not_mem_of_digits h.process.1 (by decide) (heq ▸ hd)
    · rw [List.mem_singleton.mp hd]
      decide
  have hline : line = (pid ++ [',']) ++ (op ++ ',' :: (vaddr ++ ',' :: val)) := by
    rw [h.fields, List.append_assoc]
    rfl
  rw [hline, cString, List.takeWhile_append_of_pos hall, List.length_append, hpid]
  simp only [List.length_append, List.length_cons]
  omega

/-- The first character of the process is a digit that is not above its number. -/
theorem firstByte_pid : (firstByte pid - 48).toNat ≤ cmd.pid.val ∧
    (pid.headD '\x00').toNat = 48 + (firstByte pid - 48).toNat := by
  obtain ⟨c, text, hpid⟩ := h.pid_cons
  obtain ⟨hdigits, hnumber⟩ := h.process
  rw [hpid] at hdigits hnumber
  have hc : c.isDigit = true := hdigits.2 c (by simp)
  simp only [Char.isDigit, Bool.and_eq_true, decide_eq_true_eq] at hc
  have h48 : 48 ≤ c.toNat := hc.1
  have h57 : c.toNat ≤ 57 := hc.2
  have hbyte : (firstByte pid - 48).toNat = c.toNat - 48 := by
    rw [hpid, firstByte, List.headD_cons, UInt8.toNat_sub, UInt8.toNat_ofNat']
    show (2 ^ 8 - 48 + c.toNat % 2 ^ 8) % 2 ^ 8 = c.toNat - 48
    omega
  have hle := digit_le_natOfDigits hdigits
  rw [hbyte, hpid, List.headD_cons]
  omega

/-- The values that the code finds in the fields. -/
theorem turn (hnul : '\x00' ∉ op) (hline : '\n' ∉ line) :
    Memory.turn choice (line ++ ['\n']) = some (obey (select choice cmd.letter)
      (firstByte pid - 48) (UInt8.ofNat cmd.vaddr.val) cmd.val) := by
  have hskips : ¬ skips (line ++ ['\n']) = true := by
    rw [skips_iff hline]
    exact Nat.not_lt_of_le h.two_le_length
  have hop : op.headD '\x00' = cmd.letter := by
    obtain ⟨text, hop⟩ := h.op_cons
    rw [hop]
    rfl
  have hvaddr : atoi vaddr = (cmd.vaddr.val : Int) := by
    rw [atoi_number h.address.1, h.address.2]
  have hstop : ∀ c ∈ ['\n'].head?, c.isDigit = false := by
    intro c hc
    obtain rfl := Option.some_inj.mp hc
    rfl
  have hval : atoi (val ++ ['\n']) = (cmd.val.toNat : Int) := by
    rw [atoi_digits h.byte.1 hstop, h.byte.2]
  rw [Memory.turn, if_neg hskips, cString_of_not_mem (h.not_nul hnul), h.tokens]
  dsimp only
  rw [hop, hvaddr, hval, ofInt_natCast, ofInt_natCast, UInt8.ofNat_toNat]

end Form

/-- A line stands for one command at most. -/
theorem Accepts.unique (h : Accepts line cmd) (h' : Accepts line cmd') : cmd = cmd' := by
  obtain ⟨pid, op, vaddr, val, hform⟩ := h
  obtain ⟨pid', op', vaddr', val', hform'⟩ := h'
  have htokens := hform.tokens.symm.trans hform'.tokens
  simp only [List.cons.injEq, and_true, List.append_cancel_right_eq] at htokens
  obtain ⟨rfl, rfl, rfl, rfl⟩ := htokens
  apply Cmd.ext_fields
  · exact Option.some_inj.mp (hform.letter.symm.trans hform'.letter)
  · exact hform.process.2.symm.trans hform'.process.2
  · exact hform.address.2.symm.trans hform'.address.2
  · exact hform.byte.2.symm.trans hform'.byte.2

/-- What the code reads exactly it refuses, or it is plain. -/
theorem Exact.readable (hline : '\n' ∉ line) (hexact : Exact choice line) :
    Readable choice line := by
  obtain ⟨t, hturn, hissued⟩ := hexact
  by_cases hshort : (cString line).length < 2
  · exact .inl hshort
  · right
    have hskips : ¬ skips (line ++ ['\n']) = true := fun h => hshort ((skips_iff hline).mp h)
    rw [turn, if_neg hskips] at hturn
    rw [Refused]
    split at hturn
    · next pid op vaddr val rest htokens =>
      obtain rfl := Option.some_inj.mp hturn
      cases hcall : (obey (select choice (op.headD '\x00')) (firstByte pid - 48)
          (UInt8.ofInt (atoi vaddr)) (UInt8.ofInt (atoi val))).issued with
      | none => exact .inl (obey_none_iff.mp hcall)
      | some cmd =>
        obtain ⟨pid', op', vaddr', val', hform⟩ := (hissued cmd).mp hcall
        have hnul : '\x00' ∉ op' := by
          intro hmem
          obtain ⟨word, hword⟩ := hform.tokens_nul hmem
          cases htokens.symm.trans hword
        rw [cString_of_not_mem (hform.not_nul hnul), hform.tokens] at htokens
        obtain rfl : pid' = pid := (List.cons.inj htokens).1
        refine .inr ⟨cmd, pid', op', vaddr', val', hform, hnul, ?_⟩
        rw [hform.firstByte_pid.2, obey_pid hcall]
    · cases hturn

/-- What the code refuses is not in the grammar. -/
theorem Refused.not_accepts (href : Refused choice line) : ¬ Accepts line cmd := by
  intro haccepts
  obtain ⟨pid, op, vaddr, val, hform⟩ := haccepts
  by_cases hnul : '\x00' ∈ op
  · obtain ⟨word, hword⟩ := hform.tokens_nul hnul
    rw [Refused, hword] at href
    exact href
  · obtain ⟨text, hop⟩ := hform.op_cons
    have hvaddr : atoi vaddr = (cmd.vaddr.val : Int) := by
      rw [atoi_number hform.address.1, hform.address.2]
    rw [Refused, cString_of_not_mem (hform.not_nul hnul), hform.tokens] at href
    dsimp only at href
    rw [hvaddr, hop, List.headD_cons, ofInt_natCast] at href
    rcases href with hpid | haddress | hselect
    · have hlt : 3 < (firstByte pid - 48).toNat := UInt8.lt_iff_toNat_lt.mp hpid
      have hle := hform.firstByte_pid.1
      omega
    · have hlt : 63 < (UInt8.ofNat cmd.vaddr.val).toNat := UInt8.lt_iff_toNat_lt.mp haddress
      rw [UInt8.toNat_ofNat'] at hlt
      omega
    · cases cmd <;> exact absurd hselect (by simp [select, Cmd.letter])

theorem Readable.exact (hline : '\n' ∉ line) (hread : Readable choice line) :
    Exact choice line := by
  rcases hread with hshort | href | hplain
  · refine ⟨⟨choice, [], none⟩, ?_, fun cmd => ⟨nofun, fun haccepts => ?_⟩⟩
    · rw [turn, if_pos ((skips_iff hline).mpr hshort)]
    · obtain ⟨pid, op, vaddr, val, hform⟩ := haccepts
      exact absurd hshort (Nat.not_lt_of_le hform.two_le_length)
  · by_cases hshort : skips (line ++ ['\n']) = true
    · refine ⟨⟨choice, [], none⟩, ?_, fun cmd => ⟨nofun, fun h => absurd h href.not_accepts⟩⟩
      rw [turn, if_pos hshort]
    · have hnot : ∀ cmd, ¬ Accepts line cmd := fun _ => href.not_accepts
      rw [Exact, turn, if_neg hshort]
      rw [Refused] at href
      split at href
      · refine ⟨_, rfl, fun cmd => ?_⟩
        rw [obey_none_iff.mpr href]
        exact ⟨nofun, fun h => absurd h (hnot cmd)⟩
      · exact href.elim
  · obtain ⟨cmd, pid, op, vaddr, val, hform, hnul, hdigit⟩ := hplain
    refine ⟨_, hform.turn hnul hline, fun cmd' => ?_⟩
    have hcall : (obey (select choice cmd.letter) (firstByte pid - 48)
        (UInt8.ofNat cmd.vaddr.val) cmd.val).issued = some cmd := by
      have hbyte := hform.firstByte_pid.2
      exact obey_issues (by omega) (by rw [UInt8.toNat_ofNat']; omega) rfl
    rw [hcall]
    constructor
    · intro hcmd
      rw [← Option.some_inj.mp hcmd]
      exact ⟨pid, op, vaddr, val, hform⟩
    · intro haccepts
      rw [haccepts.unique ⟨pid, op, vaddr, val, hform⟩]

/-- One line: where the code and the grammar agree. -/
theorem exact_iff (hline : '\n' ∉ line) : Exact choice line ↔ Readable choice line :=
  ⟨Exact.readable hline, Readable.exact hline⟩

end Lines

/-! ## Sequences of lines -/

/-- `P` holds of each line, with the `choice` that the lines before it leave. -/
def EachLine (P : UInt8 → List Char → Prop) : UInt8 → List (List Char) → Prop
  | _, [] => True
  | choice, line :: lines =>
    P choice line ∧ ∀ t, turn choice (line ++ ['\n']) = some t → EachLine P t.choice lines

/-- The commands of these lines, none where the line is not in the grammar. -/
def Commands : List (List Char) → List (Option Cmd) → Prop :=
  List.Forall₂ fun line issued => ∀ cmd, issued = some cmd ↔ Accepts line cmd

section Lines

variable {P Q : UInt8 → List Char → Prop} {choice : UInt8} {line : List Char}
  {lines : List (List Char)} {t : Turn}

theorem EachLine.cons (h : P choice line) (ht : turn choice (line ++ ['\n']) = some t)
    (hrest : EachLine P t.choice lines) : EachLine P choice (line :: lines) := by
  refine ⟨h, fun t' ht' => ?_⟩
  rw [← Option.some_inj.mp (ht.symm.trans ht')]
  exact hrest

theorem EachLine.mono (hlines : ∀ line ∈ lines, ∀ choice, P choice line → Q choice line)
    (h : EachLine P choice lines) : EachLine Q choice lines := by
  induction lines generalizing choice with
  | nil => trivial
  | cons line lines ih =>
    refine ⟨hlines line (by simp) choice h.1, fun t ht => ?_⟩
    exact ih (fun l hl => hlines l (by simp [hl])) (h.2 t ht)

theorem EachLine.congr (hlines : ∀ line ∈ lines, ∀ choice, P choice line ↔ Q choice line) :
    EachLine P choice lines ↔ EachLine Q choice lines :=
  ⟨EachLine.mono fun line hl choice => (hlines line hl choice).mp,
    EachLine.mono fun line hl choice => (hlines line hl choice).mpr⟩

/-- `fgets` returns the lines with their newlines. -/
theorem strings_lines (hlines : ∀ line ∈ lines, '\n' ∉ line ∧ line.length ≤ 18) :
    strings (lines.flatMap (· ++ ['\n'])) = lines.map (· ++ ['\n']) := by
  induction lines with
  | nil =>
    rw [List.flatMap_nil, strings]
    rfl
  | cons line lines ih =>
    obtain ⟨hnewline, hlength⟩ := hlines line (by simp)
    have hrest := ih fun l hl => hlines l (by simp [hl])
    have hread : fgets 20 (line ++ '\n' :: lines.flatMap (· ++ ['\n'])) = _ :=
      fgets_of_newline hnewline _ (by omega)
    rw [List.flatMap_cons, List.append_assoc, List.singleton_append, strings, hread]
    simp only [hrest, List.map_cons]

/-- Lines that are read exactly are obeyed one after the other; the others do nothing. -/
theorem instructions_obey (h : EachLine Exact choice lines) :
    ∃ issued, Commands lines issued ∧
      instructions choice (lines.map (· ++ ['\n'])) = issued.forM issue := by
  induction lines generalizing choice with
  | nil => exact ⟨[], .nil, rfl⟩
  | cons line lines ih =>
    obtain ⟨⟨t, hturn, hissued⟩, hrest⟩ := h
    obtain ⟨issued, hcommands, hinstructions⟩ := ih (hrest t hturn)
    refine ⟨t.issued :: issued, .cons hissued hcommands, ?_⟩
    rw [List.map_cons, instructions, hturn]
    dsimp only
    rw [hinstructions]
    rfl

/-- A sequence of lines is read exactly if and only if each line is readable where it stands, and
then `main` carries out the commands of the grammar and nothing else. -/
theorem reader_exact_iff (hlines : ∀ line ∈ lines, '\n' ∉ line ∧ line.length ≤ 18) :
    (EachLine Exact 255 lines ↔ EachLine Readable 255 lines) ∧
      (EachLine Readable 255 lines → ∃ issued, Commands lines issued ∧
        main (lines.flatMap (· ++ ['\n'])) = issued.forM issue) := by
  have hexact : EachLine Exact 255 lines ↔ EachLine Readable 255 lines :=
    EachLine.congr fun line hl _ => exact_iff (hlines line hl).1
  refine ⟨hexact, fun hread => ?_⟩
  rw [main, strings_lines hlines]
  exact instructions_obey (hexact.mpr hread)

end Lines

/-- A map, a line with a process that is too large, and a load. -/
def threeLines : List (List Char) := ["0,m,0,1", "4,s,0,1", "0,l,3,0"].map String.toList

theorem number_digit {c : Char} (hc : c.isDigit = true) : Number [c] (natOfDigits [c]) :=
  ⟨⟨List.cons_ne_nil _ _, fun _ hd => List.mem_singleton.mp hd ▸ hc⟩, rfl⟩

theorem plain_map : Plain "0,m,0,1".toList := by
  have hform : Form "0,m,0,1".toList (.map 0 0 1) ['0'] ['m'] ['0'] ['1'] :=
    ⟨rfl, number_digit rfl, rfl, by decide, number_digit rfl, number_digit rfl⟩
  exact ⟨.map 0 0 1, ['0'], ['m'], ['0'], ['1'], hform, by decide, rfl⟩

theorem plain_load : Plain "0,l,3,0".toList := by
  have hform : Form "0,l,3,0".toList (.load 0 3 0) ['0'] ['l'] ['3'] ['0'] :=
    ⟨rfl, number_digit rfl, rfl, by decide, number_digit rfl, number_digit rfl⟩
  exact ⟨.load 0 3 0, ['0'], ['l'], ['3'], ['0'], hform, by decide, rfl⟩

instance (choice : UInt8) (line : List Char) : Decidable (Refused choice line) := by
  unfold Refused
  split <;> infer_instance

theorem readable_three : EachLine Readable 255 threeLines := by
  apply EachLine.cons (t := ⟨0, [], some (.map 0 0 1)⟩) (.inr (.inr plain_map)) (by decide +kernel)
  apply EachLine.cons (t := ⟨3, [.pid], none⟩) (.inr (.inl (by decide +kernel))) (by decide +kernel)
  apply EachLine.cons (t := ⟨2, [], some (.load 0 3 0)⟩) (.inr (.inr plain_load))
    (by decide +kernel)
  trivial

theorem reader_exact_three : EachLine Exact 255 threeLines ∧ ∃ issued,
    Commands threeLines issued ∧ main (threeLines.flatMap (· ++ ['\n'])) = issued.forM issue := by
  have hlines : ∀ line ∈ threeLines, '\n' ∉ line ∧ line.length ≤ 18 := by decide
  obtain ⟨hexact, hmain⟩ := reader_exact_iff hlines
  exact ⟨hexact.mpr readable_three, hmain readable_three⟩

/-- The process 12 is read as the process 1. -/
theorem reader_misreads : turn 255 "12,m,0,1\n".toList = some ⟨0, [], some (.map 1 0 1)⟩ ∧
    (∀ cmd, ¬ Accepts "12,m,0,1".toList cmd) ∧ ¬ EachLine Exact 255 ["12,m,0,1".toList] := by
  have hturn : turn 255 "12,m,0,1\n".toList = some ⟨0, [], some (.map 1 0 1)⟩ := by decide +kernel
  have hnot : ∀ cmd, ¬ Accepts "12,m,0,1".toList cmd := by
    intro cmd haccepts
    obtain ⟨pid, op, vaddr, val, hform⟩ := haccepts
    have htokens : strtok ',' ("12,m,0,1".toList ++ ['\n']) =
        [['1', '2'], ['m'], ['0'], ['1', '\n']] := by decide +kernel
    obtain rfl : pid = ['1', '2'] := (List.cons.inj (hform.tokens.symm.trans htokens)).1
    have hnumber : natOfDigits ['1', '2'] = cmd.pid.val := hform.process.2
    have hlt := cmd.pid.isLt
    rw [← hnumber] at hlt
    exact absurd hlt (by decide)
  refine ⟨hturn, hnot, fun hexact => ?_⟩
  obtain ⟨⟨t, ht, hissued⟩, -⟩ := hexact
  obtain rfl := Option.some_inj.mp (hturn.symm.trans ht)
  exact hnot _ ((hissued (.map 1 0 1)).mp rfl)

end Cs3013.Memory
