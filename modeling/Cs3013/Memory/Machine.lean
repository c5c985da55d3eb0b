import Cs3013.Library.Faulting
import Mathlib.Algebra.GroupWithZero.Nat
import Mathlib.Data.Fintype.Pi
import Mathlib.Data.Fin.VecNotation

/-!
# The simulated memory and its control data

The global variables of `memory.c`. The four-entry arrays are indexed by frame or by
process; the 64 bytes of `mem` are only reached through `peek` and `poke`, which fault on
an index outside the array. What the C standard leaves undefined is a fault as well, and a
fault ends the run.
-/
namespace Cs3013.Memory

open Cs3013.Library.Faulting

/-- Numerals stand for processes and frames, and for the addresses of a process. -/
scoped instance four_neZero : NeZero 4 := ⟨by decide⟩

scoped instance sixtyFour_neZero : NeZero 64 := ⟨by decide⟩

/-- Sixteen bytes (`PAGEMEM`): the array `temp`, and the contents of one frame. -/
abbrev Page := Vector UInt8 16

def Page.byte (page : Page) (o : Nat) : UInt8 := page.toList.getD o 0

def zeroPage : Page := Vector.replicate 16 0

/-- The field `inmem`: 1 in memory, 0 in the file, -1 otherwise. -/
inductive Residency where
  | memory
  | file
  | unset
  deriving DecidableEq, Repr

/-- `struct hp`: a frame address, or a line of the swap file. -/
structure Hp where
  address : Int
  inmem : Residency
  deriving DecidableEq, Repr

/-- The control data. Every flag of `freelist` and `ispagetable` is only ever 0 or 1. -/
structure Frames where
  freelist : Fin 4 → Bool
  pages : Fin 4 → Int
  ispagetable : Fin 4 → Bool
  hardware : Fin 4 → Hp
  roundrobin : Fin 4

/-- The calls of `printf`, one constructor for each format string. -/
inductive Message where
  | lineNotFound (line : Int)
  | tableLoaded (pid address : Int)
  | pageLoaded (vpage : Nat) (pid address : Int)
  | tableSwapped (pid : Int)
  | frameSwapped (frame line : Nat)
  | stored (val : UInt8) (paddr : Int)
  | notWriteable (vaddr : Nat)
  | value (vaddr : Nat) (val : UInt8)
  | storeSegfault (vaddr : Nat)
  | tableCreated (pid address : Int)
  | tableLoadedFor (pid address : Int)
  | alreadyHas (val : UInt8)
  | altered
  | pageAllocated (vpn : UInt8) (address : Int)
  | notAllocated (vaddr : Nat) (val : UInt8)
  | loadSegfault (vaddr : Nat)
  deriving DecidableEq, Repr

def Message.text : Message → String
  | .lineNotFound line => "Error:  line " ++ toString line ++ " not found in disk \n"
  | .tableLoaded pid address => "Page table for process " ++ toString pid ++
      " loaded from disk and stored at address " ++ toString address ++ "\n"
  | .pageLoaded vpage pid address => "Page " ++ toString vpage ++ " for process " ++ toString pid ++
      " loaded from disk and stored at address " ++ toString address ++ "\n"
  | .tableSwapped pid => "Page table for process " ++ toString pid ++ " was swapped to disk \n"
  | .frameSwapped frame line =>
      "Swapped frame " ++ toString frame ++ " to disk line " ++ toString line ++ " \n"
  | .stored val paddr =>
      "Stored " ++ toString val ++ " at physical address " ++ toString paddr ++ " \n"
  | .notWriteable vaddr =>
      "ERROR: Virtual Address " ++ toString vaddr ++ " is not writeable \n"
  | .value vaddr val =>
      "The value at virtual address " ++ toString vaddr ++ " is: " ++ toString val ++ " \n"
  | .storeSegfault vaddr => "ERROR: Segfault, memory has not been allocated for virtual address " ++
      toString vaddr ++ " \n"
  | .tableCreated pid address => "Page table for process " ++ toString pid ++
      " created at address " ++ toString address ++ "\n"
  | .tableLoadedFor pid address => "Loaded page table for process " ++ toString pid ++
      " at address " ++ toString address ++ "\n"
  | .alreadyHas val => "ERROR: Page already has value " ++ toString val ++ " \n"
  | .altered => "Altered Page value\n"
  | .pageAllocated vpn address =>
      "Physical page for VPN " ++ toString vpn ++ " allocated at: " ++ toString address ++ "\n"
  | .notAllocated vaddr val => "The virtual address hasn't been allocated undeterministic " ++
      "behavior! Value found at " ++ toString vaddr ++ " was " ++ toString val ++ "\n"
  | .loadSegfault vaddr => "ERROR: Segfault memory hasn't been allocated for virtual address " ++
      toString vaddr ++ " \n"

/-- Ghost record of the calls whose arguments or results the code does not check: `removePage`
as `freespace` calls it, and `findfree` where its result is used as an address at once. -/
inductive Call where
  | removePage (pid paddr : Int) (hardware : Fin 4 → Hp)
  | findfree (result : Int)

/-- The global state. `swapspace` is the text of swapspace.txt; `stack` lists what the
successive uninitialised arrays `temp` happen to hold; `out` is what the current command has
printed, and `written` the bytes that each call of `pageToFile` has found, the first call first. No
function reads `out`, `calls` or `written`. -/
structure Machine extends Frames where
  mem : Vector UInt8 64
  linecount : Nat
  swapspace : List Char
  stack : List Page
  out : List Message
  calls : List Call
  written : List (List UInt8)

/-- What ends a run: an index outside an array, `atoi` of the null result of `strtok`, a search
of the swap file that passes its end, the overflow of the `int` linecount, and a loop of
`freespace` that does not finish. -/
inductive Fault where
  | mem (index : Int)
  | hardware (pid : Int)
  | frame (index : Int)
  | token
  | endOfFile
  | overflow
  | loop
  deriving DecidableEq, Repr

/-- A fault of the program itself, not of the bound on a loop of `freespace`. -/
def Fault.Real (e : Fault) : Prop := e ≠ .loop

theorem Fault.real_overflow : Fault.overflow.Real := nofun

abbrev M (α : Type) := Prog Fault Machine α

namespace Frames

variable (f : Frames) (i p : Fin 4)

/-- Frame `i` taken from the free list. -/
def take : Frames := { f with freelist := Function.update f.freelist i false }

/-- Frame `i` taken for a page of process `p`. -/
def givePage : Frames := { f.take i with pages := Function.update f.pages i p.val }

/-- Frame `i` taken for the page table of process `p`. -/
def giveTable : Frames :=
  { f.givePage i p with
    hardware := Function.update f.hardware p ⟨16 * i.val, .memory⟩
    ispagetable := Function.update f.ispagetable i true }

/-- The page in frame `i` swapped out. -/
def dropPage : Frames :=
  { f with freelist := Function.update f.freelist i true, pages := Function.update f.pages i (-1) }

/-- The page table of `p` in frame `i` swapped out to a line. -/
def dropTable (line : Nat) : Frames :=
  { f.dropPage i with
    hardware := Function.update f.hardware p ⟨line, .file⟩
    ispagetable := Function.update f.ispagetable i false }

/-- The round-robin counter moved to frame `i`. -/
def turnTo : Frames := { f with roundrobin := i }

end Frames

/-- The frame numbers in the order of every `for` loop over them. -/
def frameList : List (Fin 4) := [0, 1, 2, 3]

def Frames.freeCount (f : Frames) : Nat := frameList.countP f.freelist

def Machine.byte (s : Machine) (a : Nat) : UInt8 := s.mem.toList.getD a 0

/-- Read `mem[i]`. -/
def peek (i : Int) : M UInt8 := fun s =>
  if 0 ≤ i ∧ i < 64 then .ok (s.byte i.toNat) s else .error (.mem i) s

/-- Write `mem[i]`. -/
def poke (i : Int) (v : UInt8) : M Unit := fun s =>
  if 0 ≤ i ∧ i < 64 then .ok () { s with mem := s.mem.setIfInBounds i.toNat v }
  else .error (.mem i) s

/-- `hardware[pid]` as an index. -/
def hardwareIndex (pid : Int) : M (Fin 4) := fun s =>
  if h : 0 ≤ pid ∧ pid < 4 then .ok ⟨pid.toNat, by omega⟩ s else .error (.hardware pid) s

/-- `address / PAGEMEM` as an index of the frame arrays; the division of C rounds towards zero. -/
def frameIndex (address : Int) : M (Fin 4) := fun s =>
  if h : 0 ≤ address.tdiv 16 ∧ address.tdiv 16 < 4 then .ok ⟨(address.tdiv 16).toNat, by omega⟩ s
  else .error (.frame (address.tdiv 16)) s

def say (m : Message) : M Unit := modify fun s => { s with out := s.out ++ [m] }

def note (c : Call) : M Unit := modify fun s => { s with calls := s.calls ++ [c] }

def hardwareOf (pid : Int) : M Hp := do
  let p ← hardwareIndex pid
  let s ← get
  return s.hardware p

def setHardware (pid : Int) (hp : Hp) : M Unit := do
  let p ← hardwareIndex pid
  modify fun s => { s with hardware := Function.update s.hardware p hp }

def setPages (address : Int) (pid : Int) : M Unit := do
  let i ← frameIndex address
  modify fun s => { s with pages := Function.update s.pages i pid }

def setFreelist (address : Int) (free : Bool) : M Unit := do
  let i ← frameIndex address
  modify fun s => { s with freelist := Function.update s.freelist i free }

def setIspagetable (address : Int) (table : Bool) : M Unit := do
  let i ← frameIndex address
  modify fun s => { s with ispagetable := Function.update s.ispagetable i table }

/-- The contents of a fresh `unsigned char temp[16]`. -/
def uninitialised : M Page := fun s =>
  .ok (s.stack.headD zeroPage) { s with stack := s.stack.tail }

/-! ## Bytes and frames -/

theorem ofInt_natCast (n : Nat) : UInt8.ofInt (n : Int) = UInt8.ofNat n := by
  apply UInt8.toNat_inj.mp
  rw [UInt8.ofInt, UInt8.toNat_ofNat', UInt8.toNat_ofNat']
  omega

theorem Page.byte_eq (page : Page) {o : Nat} (ho : o < 16) : page.byte o = page[o] := by
  simp [Page.byte, ho]

theorem Page.byte_ofFn (f : Fin 16 → UInt8) {o : Nat} (ho : o < 16) :
    Page.byte (Vector.ofFn f) o = f ⟨o, ho⟩ := by
  rw [Page.byte_eq _ ho, Vector.getElem_ofFn]

theorem Page.byte_zero (o : Nat) : zeroPage.byte o = 0 := by
  by_cases ho : o < 16
  · rw [Page.byte_eq _ ho]
    simp [zeroPage]
  · simp [Page.byte, ho]

theorem Page.ext_byte {page page' : Page} (h : ∀ o < 16, page.byte o = page'.byte o) :
    page = page' := by
  apply Vector.ext
  intro o ho
  rw [← Page.byte_eq page ho, ← Page.byte_eq page' ho, h o ho]

/-- The array `mem` after the copying loop of `swaptomem`. -/
@[irreducible] def copyPage (mem : Vector UInt8 64) (base : Nat) (page : Page) : Vector UInt8 64 :=
  (List.range 16).foldl (fun m o => m.setIfInBounds (base + o) (page.byte o)) mem

namespace Machine

variable (s : Machine)

def withFrames (f : Frames) : Machine := { s with toFrames := f }

def printed (m : Message) : Machine := { s with out := s.out ++ [m] }

def noted (c : Call) : Machine := { s with calls := s.calls ++ [c] }

def popped : Machine := { s with stack := s.stack.tail }

/-- The machine with one byte of `mem` replaced. -/
def write (a : Nat) (v : UInt8) : Machine := { s with mem := s.mem.setIfInBounds a v }

/-- The machine with the sixteen bytes of one frame replaced. -/
def writePage (i : Fin 4) (page : Page) : Machine :=
  { s with mem := copyPage s.mem (16 * i.val) page }

/-- The contents of one frame. -/
def page (i : Fin 4) : Page := Vector.ofFn fun o : Fin 16 => s.byte (16 * i.val + o.val)

@[simp] theorem withFrames_toFrames (f : Frames) : (s.withFrames f).toFrames = f := rfl
@[simp] theorem withFrames_linecount (f : Frames) : (s.withFrames f).linecount = s.linecount := rfl
@[simp] theorem withFrames_swapspace (f : Frames) : (s.withFrames f).swapspace = s.swapspace := rfl
@[simp] theorem withFrames_out (f : Frames) : (s.withFrames f).out = s.out := rfl
@[simp] theorem withFrames_calls (f : Frames) : (s.withFrames f).calls = s.calls := rfl
@[simp] theorem withFrames_byte (f : Frames) (b : Nat) : (s.withFrames f).byte b = s.byte b := rfl

@[simp] theorem printed_toFrames (m : Message) : (s.printed m).toFrames = s.toFrames := rfl
@[simp] theorem printed_linecount (m : Message) : (s.printed m).linecount = s.linecount := rfl
@[simp] theorem printed_swapspace (m : Message) : (s.printed m).swapspace = s.swapspace := rfl
@[simp] theorem printed_out (m : Message) : (s.printed m).out = s.out ++ [m] := rfl
@[simp] theorem printed_calls (m : Message) : (s.printed m).calls = s.calls := rfl
@[simp] theorem printed_byte (m : Message) (b : Nat) : (s.printed m).byte b = s.byte b := rfl

@[simp] theorem noted_toFrames (c : Call) : (s.noted c).toFrames = s.toFrames := rfl
@[simp] theorem noted_linecount (c : Call) : (s.noted c).linecount = s.linecount := rfl
@[simp] theorem noted_swapspace (c : Call) : (s.noted c).swapspace = s.swapspace := rfl
@[simp] theorem noted_out (c : Call) : (s.noted c).out = s.out := rfl
@[simp] theorem noted_calls (c : Call) : (s.noted c).calls = s.calls ++ [c] := rfl
@[simp] theorem noted_byte (c : Call) (b : Nat) : (s.noted c).byte b = s.byte b := rfl

@[simp] theorem popped_toFrames : s.popped.toFrames = s.toFrames := rfl
@[simp] theorem popped_linecount : s.popped.linecount = s.linecount := rfl
@[simp] theorem popped_swapspace : s.popped.swapspace = s.swapspace := rfl
@[simp] theorem popped_out : s.popped.out = s.out := rfl
@[simp] theorem popped_calls : s.popped.calls = s.calls := rfl
@[simp] theorem popped_byte (b : Nat) : s.popped.byte b = s.byte b := rfl

@[simp] theorem write_toFrames (a : Nat) (v : UInt8) : (s.write a v).toFrames = s.toFrames := rfl
@[simp] theorem write_linecount (a : Nat) (v : UInt8) : (s.write a v).linecount = s.linecount := rfl
@[simp] theorem write_swapspace (a : Nat) (v : UInt8) : (s.write a v).swapspace = s.swapspace := rfl
@[simp] theorem write_out (a : Nat) (v : UInt8) : (s.write a v).out = s.out := rfl
@[simp] theorem write_calls (a : Nat) (v : UInt8) : (s.write a v).calls = s.calls := rfl

@[simp] theorem writePage_toFrames (i : Fin 4) (page : Page) :
    (s.writePage i page).toFrames = s.toFrames := rfl
@[simp] theorem writePage_linecount (i : Fin 4) (page : Page) :
    (s.writePage i page).linecount = s.linecount := rfl
@[simp] theorem writePage_swapspace (i : Fin 4) (page : Page) :
    (s.writePage i page).swapspace = s.swapspace := rfl
@[simp] theorem writePage_out (i : Fin 4) (page : Page) : (s.writePage i page).out = s.out := rfl
@[simp] theorem writePage_calls (i : Fin 4) (page : Page) :
    (s.writePage i page).calls = s.calls := rfl

theorem byte_write {a : Nat} (ha : a < 64) (v : UInt8) (b : Nat) :
    (s.write a v).byte b = if b = a then v else s.byte b := by
  by_cases hb : b < 64
  · by_cases hab : b = a
    · subst hab
      simp [write, byte, hb]
    · simp [write, byte, hb, hab, Ne.symm hab]
  · have hab : b ≠ a := by omega
    simp [write, byte, hb, hab]

private theorem getD_foldl_setIfInBounds (page : Page) (base : Nat) :
    ∀ (n : Nat) (mem : Vector UInt8 64) (b : Nat), base + n ≤ 64 →
      ((List.range n).foldl (fun m o => m.setIfInBounds (base + o) (page.byte o))
        mem).toList.getD b 0 =
        if base ≤ b ∧ b < base + n then page.byte (b - base) else mem.toList.getD b 0 := by
  intro n
  induction n with
  | zero =>
    intro mem b _
    have h : ¬ (base ≤ b ∧ b < base + 0) := by omega
    rw [if_neg h]
    rfl
  | succ n ih =>
    intro mem b hn
    rw [List.range_succ, List.foldl_append]
    have hstep := ih mem b (by omega)
    by_cases hb : b = base + n
    · subst hb
      have hlt : base + n < 64 := by omega
      simp [hlt]
    · have hne : ¬ base + n = b := fun h => hb h.symm
      simp only [List.foldl_cons, List.foldl_nil]
      have hset : ∀ m : Vector UInt8 64,
          (m.setIfInBounds (base + n) (page.byte n)).toList.getD b 0 = m.toList.getD b 0 := by
        intro m
        simp [hne]
      rw [hset, hstep]
      by_cases hin : base ≤ b ∧ b < base + n
      · rw [if_pos hin, if_pos ⟨hin.1, by omega⟩]
      · rw [if_neg hin, if_neg (by omega)]

theorem byte_writePage (i : Fin 4) (page : Page) (b : Nat) :
    (s.writePage i page).byte b =
      if 16 * i.val ≤ b ∧ b < 16 * i.val + 16 then page.byte (b - 16 * i.val) else s.byte b := by
  have hi : 16 * i.val + 16 ≤ 64 := by omega
  have h := getD_foldl_setIfInBounds page (16 * i.val) 16 s.mem b hi
  unfold byte writePage copyPage
  rw [h]

theorem byte_page (i : Fin 4) {o : Nat} (ho : o < 16) :
    (s.page i).byte o = s.byte (16 * i.val + o) :=
  Page.byte_ofFn _ ho

end Machine

/-- Everything but the bytes of `mem`, the printed messages and the uninitialised arrays. -/
def Machine.control (s : Machine) : Frames × List Call × Nat × List Char :=
  (s.toFrames, s.calls, s.linecount, s.swapspace)

section Control

variable {s t : Machine} (h : t.control = s.control)

include h

theorem control_toFrames : t.toFrames = s.toFrames := congrArg (·.1) h

theorem control_calls : t.calls = s.calls := congrArg (·.2.1) h

theorem control_linecount : t.linecount = s.linecount := congrArg (·.2.2.1) h

theorem control_swapspace : t.swapspace = s.swapspace := congrArg (·.2.2.2) h

end Control

/-! ## What the accesses do -/

section Accesses

variable {s : Machine}

theorem peek_of_lt {a : Nat} (ha : a < 64) : (peek (a : Int)).run s = .ok (s.byte a) s := by
  have h : (0 : Int) ≤ a ∧ (a : Int) < 64 := by omega
  simp [EStateM.run, peek, h]

theorem poke_of_lt {a : Nat} (ha : a < 64) (v : UInt8) :
    (poke (a : Int) v).run s = .ok () (s.write a v) := by
  have h : (0 : Int) ≤ a ∧ (a : Int) < 64 := by omega
  simp [EStateM.run, poke, h, Machine.write]

/-- The same accesses, for an index written in any form. -/
theorem peek_eq {i : Int} {a : Nat} (hi : i = a) (ha : a < 64) :
    (peek i).run s = .ok (s.byte a) s := by
  rw [hi]
  exact peek_of_lt ha

theorem poke_eq {i : Int} {a : Nat} (hi : i = a) (ha : a < 64) (v : UInt8) :
    (poke i v).run s = .ok () (s.write a v) := by
  rw [hi]
  exact poke_of_lt ha v

theorem poke_fault {i : Int} {a : Nat} (hi : i = a) (ha : 64 ≤ a) (v : UInt8) :
    (poke i v).run s = .error (.mem i) s := by
  have h : ¬ (0 ≤ i ∧ i < 64) := by omega
  exact if_neg h

theorem peek_fault {i : Int} {a : Nat} (hi : i = a) (ha : 64 ≤ a) :
    (peek i).run s = .error (.mem i) s := by
  have h : ¬ (0 ≤ i ∧ i < 64) := by omega
  exact if_neg h

theorem hardwareIndex_ok (p : Fin 4) : (hardwareIndex (p.val : Int)).run s = .ok p s := by
  have h : (0 : Int) ≤ p.val ∧ (p.val : Int) < 4 := by omega
  simp [EStateM.run, hardwareIndex, h]

theorem frameIndex_ok (i : Fin 4) : (frameIndex (16 * (i.val : Int))).run s = .ok i s := by
  have hdiv : (16 * (i.val : Int)).tdiv 16 = i.val := Int.mul_tdiv_cancel_left _ (by decide)
  have h : (0 : Int) ≤ i.val ∧ (i.val : Int) < 4 := by omega
  simp [EStateM.run, frameIndex, hdiv, h]

theorem hardwareOf_ok (p : Fin 4) : (hardwareOf (p.val : Int)).run s = .ok (s.hardware p) s := by
  rw [hardwareOf, bind_of_ok (hardwareIndex_ok p)]
  rfl

theorem setHardware_ok (p : Fin 4) (hp : Hp) : (setHardware (p.val : Int) hp).run s =
    .ok () (s.withFrames { s.toFrames with hardware := Function.update s.hardware p hp }) := by
  rw [setHardware, bind_of_ok (hardwareIndex_ok p)]
  rfl

theorem setPages_ok (i : Fin 4) (pid : Int) : (setPages (16 * (i.val : Int)) pid).run s =
    .ok () (s.withFrames { s.toFrames with pages := Function.update s.pages i pid }) := by
  rw [setPages, bind_of_ok (frameIndex_ok i)]
  rfl

theorem setFreelist_ok (i : Fin 4) (free : Bool) : (setFreelist (16 * (i.val : Int)) free).run s =
    .ok () (s.withFrames { s.toFrames with freelist := Function.update s.freelist i free }) := by
  rw [setFreelist, bind_of_ok (frameIndex_ok i)]
  rfl

theorem setIspagetable_ok (i : Fin 4) (table : Bool) :
    (setIspagetable (16 * (i.val : Int)) table).run s =
      .ok () (s.withFrames
        { s.toFrames with ispagetable := Function.update s.ispagetable i table }) := by
  rw [setIspagetable, bind_of_ok (frameIndex_ok i)]
  rfl

theorem say_ok (m : Message) : (say m).run s = .ok () (s.printed m) := rfl

theorem note_ok (c : Call) : (note c).run s = .ok () (s.noted c) := rfl

theorem uninitialised_ok :
    uninitialised.run s = .ok (s.stack.headD zeroPage) s.popped := rfl

theorem peek_preserves {τ : Type} {view : Machine → τ} (i : Int) :
    Preserves Fault.Real view (peek i) := by
  intro s
  unfold wp EStateM.run peek
  split_ifs
  · rfl
  · exact ⟨nofun, rfl⟩

theorem frameIndex_preserves (address : Int) {τ : Type} {view : Machine → τ} :
    Preserves Fault.Real view (frameIndex address) := by
  intro s
  unfold wp EStateM.run frameIndex
  split_ifs
  · rfl
  · exact ⟨nofun, rfl⟩

theorem hardwareIndex_preserves (pid : Int) {τ : Type} {view : Machine → τ} :
    Preserves Fault.Real view (hardwareIndex pid) := by
  intro s
  unfold wp EStateM.run hardwareIndex
  split_ifs
  · rfl
  · exact ⟨nofun, rfl⟩

theorem poke_preserves (i : Int) (v : UInt8) :
    Preserves Fault.Real Machine.control (poke i v) := by
  intro s
  unfold wp EStateM.run poke
  split_ifs
  · rfl
  · exact ⟨nofun, rfl⟩

theorem say_preserves (m : Message) : Preserves Fault.Real Machine.control (say m) :=
  fun _ => rfl

end Accesses

end Cs3013.Memory
