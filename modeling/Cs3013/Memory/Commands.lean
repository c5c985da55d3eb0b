import Cs3013.Library.Transition
import Cs3013.Memory.Freespace

/-!
# The commands of the simulation

`map`, `store` and `load`, with `command` for a page table that is on disk, and the
simulation as a transition system: one step is one command that finishes, labelled with
what it returned and printed.
-/
namespace Cs3013.Memory

open Cs3013.Library.Faulting Cs3013.Library.Transition

/-- The test `command == 's'`. -/
inductive Access where
  | s
  | l
  deriving DecidableEq

/-- The first part of `command`: bring in the page table, and the page if it is on disk. -/
def fetch (pid : Int) (vaddr : Nat) : M Unit := do
  let space : Int := (← get).freeCount
  let hp ← hardwareOf pid
  if hp.inmem = .file then
    if space < 1 then freespace 1 pid
    let _ ← loadPageTable pid
    let pte ← findpte pid vaddr
    if (← peek (pte + 3)) = 1 then
      if space - 1 < 1 then freespace 1 pid
      let _ ← loadPage pid vaddr

def command (access : Access) (pid : Int) (vaddr : Nat) (val : UInt8) : M Unit := do
  fetch pid vaddr
  match access with
  | .s =>
    let pte ← findpte pid vaddr
    if (← peek (pte + 2)) = 1 then
      let paddr ← convert vaddr pid
      poke paddr val
      say (.stored val paddr)
    else
      say (.notWriteable vaddr)
  | .l =>
    let paddr ← convert vaddr pid
    if paddr > 0 then
      say (.value vaddr (← peek paddr))

def store (pid : Int) (vaddr : Nat) (val : UInt8) : M Int := do
  let pte ← findpte pid vaddr
  if pte ≥ 0 then
    let paddr ← convert vaddr pid
    if paddr < 0 then
      say (.storeSegfault vaddr)
      return 0
    else if (← peek (pte + 2)) = 1 then
      poke paddr val
      say (.stored val paddr)
      return 1
    else
      say (.notWriteable vaddr)
      return 0
  else if pte = -1 then
    command .s pid vaddr val
    return 1
  else if pte = -2 then
    say (.storeSegfault vaddr)
    return 0
  else
    return 0

/-- The first part of `map`, which leaves a page table in memory. -/
def mapTable (pid : Int) (vaddr : Nat) : M Unit := do
  if (← findpte pid vaddr) = -2 then
    freespace 2 pid
    let free ← findfree
    note (.findfree free)
    say (.tableCreated pid free)
    setHardware pid ⟨free, .memory⟩
    setPages free pid
    setIspagetable free true
    forM (List.range 4) fun (i : Nat) => do
      let hp ← hardwareOf pid
      poke (hp.address + 4 * i) (UInt8.ofNat i)
      poke (hp.address + 4 * i + 3) 0
  else if (← findpte pid vaddr) = -1 then
    freespace 1 pid
    let pt ← loadPageTable pid
    setPages pt pid
    setIspagetable pt true
    say (.tableLoadedFor pid pt)

/-- `ppage = findfree()`, once more after `freespace(1,pid)` when there is none. -/
def obtainFrame (pid : Int) : M Int := do
  let ppage ← findfree
  if ppage < 0 then
    freespace 1 pid
    let ppage ← findfree
    note (.findfree ppage)
    return ppage
  else
    return ppage

/-- The second part of `map`, which changes the protection of a present page or takes a frame. -/
def mapPage (pid : Int) (vaddr : Nat) (val : UInt8) : M Int := do
  let pte ← findpte pid vaddr
  if (← peek (pte + 3)) = 2 then
    if (← peek (pte + 2)) = val then
      say (.alreadyHas val)
    else
      say .altered
      poke (pte + 2) val
    return 1
  else
    let ppage ← obtainFrame pid
    setPages ppage pid
    say (.pageAllocated (← peek pte) ppage)
    poke (pte + 1) (UInt8.ofInt ppage)
    poke (pte + 2) val
    poke (pte + 3) 2
    return 1

def map (pid : Int) (vaddr : Nat) (val : UInt8) : M Int := do
  mapTable pid vaddr
  mapPage pid vaddr val

def load (pid : Int) (vaddr : Nat) (val : UInt8) : M Int := do
  let pte ← findpte pid vaddr
  if pte ≥ 0 then
    let valpres ← peek (pte + 3)
    if valpres = 1 then
      if frameList.any (← get).freelist then
        let _ ← loadPage pid vaddr
      else
        freespace 1 pid
        let _ ← loadPage pid vaddr
      let paddr ← convert vaddr pid
      if paddr > 0 then
        say (.value vaddr (← peek paddr))
        return 1
      else
        return 0
    else if valpres = 2 then
      let paddr ← convert vaddr pid
      say (.value vaddr (← peek paddr))
      return 1
    else
      let paddr ← convert vaddr pid
      say (.notAllocated vaddr (← peek paddr))
      return 0
  else if pte = -1 then
    command .l pid vaddr val
    return 1
  else if pte = -2 then
    say (.loadSegfault vaddr)
    return 0
  else
    return 0

/-- An instruction as `main` passes it on: a valid process, a valid address, one byte. -/
inductive Cmd where
  | map (pid : Fin 4) (vaddr : Fin 64) (val : UInt8)
  | store (pid : Fin 4) (vaddr : Fin 64) (val : UInt8)
  | load (pid : Fin 4) (vaddr : Fin 64) (val : UInt8)
  deriving DecidableEq, Repr

def Cmd.run : Cmd → M Int
  | .map pid vaddr val => Memory.map pid.val vaddr.val val
  | .store pid vaddr val => Memory.store pid.val vaddr.val val
  | .load pid vaddr val => Memory.load pid.val vaddr.val val

def Cmd.pid : Cmd → Fin 4
  | .map pid _ _ => pid
  | .store pid _ _ => pid
  | .load pid _ _ => pid

/-- One command, with `out` and `calls` starting empty. -/
def exec (c : Cmd) : M Int := do
  modify fun s => { s with out := [], calls := [] }
  c.run

/-- The state after the start of `main`: the arrays as C initialises them and the first loop
leaves them, and an empty swap file. -/
def startup (stack : List Page) : Machine where
  freelist := fun _ => true
  pages := fun _ => -1
  ispagetable := fun _ => false
  hardware := fun _ => ⟨0, .unset⟩
  roundrobin := 0
  mem := Vector.replicate 64 0
  linecount := 0
  swapspace := []
  stack := stack
  out := []
  calls := []
  written := []

/-- A command that has finished, with its result and its output. -/
structure Event where
  cmd : Cmd
  ret : Int
  out : List Message

/-- A step is a command that finishes; a fault ends the run. -/
def memsim : System Machine Event where
  init s := ∃ stack, s = startup stack
  step s e s' := exec e.cmd s = .ok e.ret s' ∧ e.out = s'.out

/-- The events of a list of commands, the last one first; it stops where `ok` does not allow a
command. -/
def history (ok : Machine → Cmd → Prop) [∀ s c, Decidable (ok s c)] : List Cmd → M (List Event)
  | [] => return []
  | cmd :: cmds => do
    if ok (← get) cmd then
      let ret ← exec cmd
      let s ← get
      let h ← history ok cmds
      return h ++ [⟨cmd, ret, s.out⟩]
    else
      throw .loop

section History

variable (ok : Machine → Cmd → Prop) [∀ s c, Decidable (ok s c)]

theorem history_steps (cmds : List Cmd) (s : Machine) :
    wp (history ok cmds) (fun h u => memsim.Steps (fun s e => ok s e.cmd) s h u ∧
      h.map Event.cmd = cmds.reverse) (fun _ _ => True) s := by
  induction cmds generalizing s with
  | nil => exact ⟨.refl, rfl⟩
  | cons cmd cmds ih =>
    rw [history, wp_bind, wp_get, wp_ite]
    split_ifs with hok
    · rw [wp_bind]
      unfold wp
      cases hexec : (exec cmd).run s with
      | error e t => trivial
      | ok ret t =>
        show wp _ _ _ t
        rw [wp_bind, wp_get, wp_bind]
        apply wp_forget (ih t)
        intro h u hsteps
        exact ⟨.head hok ⟨hexec, rfl⟩ hsteps.1, by simp [hsteps.2]⟩
    · trivial

/-- A list of allowed commands that ends with `Q` is a run from the start. -/
theorem exists_run {cmds : List Cmd} {Q : List Event → Machine → Prop} (stack : List Page)
    (hQ : wp (history ok cmds) Q (fun _ _ => False) (startup stack)) :
    ∃ h s, memsim.RunIf (fun s e => ok s e.cmd) h s ∧ h.map Event.cmd = cmds.reverse ∧ Q h s := by
  obtain ⟨h, s, -, hsteps, hs⟩ := ok_of_wp
    (wp_mono (wp_and (history_steps ok cmds (startup stack)) hQ) (fun _ _ h => h) fun _ _ h => h.2)
  exact ⟨h, s, ⟨_, ⟨stack, rfl⟩, hsteps.1⟩, hsteps.2, hs⟩

end History

end Cs3013.Memory
