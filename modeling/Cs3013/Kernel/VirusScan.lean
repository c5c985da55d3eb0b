import Cs3013.Library.CMemory
import Mathlib.Algebra.Group.Int.Defs
import Mathlib.Algebra.Group.Nat.Defs
import Mathlib.Data.List.Infix

/-!
# The virus scan of `part1`

`new_sys_read` copies the string in the user's buffer, looks for VIRUS in the copy, and reads into
the buffer only then. What the read delivers is never scanned: the message is about what the buffer
held before, up to its first NUL.
-/
namespace Cs3013.Kernel

open Cs3013.Library.CMemory

/-- `ref_sys_read(fd, buf, count)`: the value it returns and the user's memory from `buf` on. -/
abbrev SysRead := Int → List UInt8 → Nat → Int × List UInt8

/-- The message of `new_sys_read`. -/
structure MaliciousCode where
  user : Int
  fd : Int
  deriving DecidableEq, Repr

def MaliciousCode.text (m : MaliciousCode) : String :=
  "User " ++ toString m.user ++ " read from file descriptor: " ++ toString m.fd ++
    " but that read contained malicious \tcode!\t\t\n"

/-- The bytes of "VIRUS". -/
def virus : List UInt8 := [86, 73, 82, 85, 83]

/-- What has been logged, the value returned and the user's memory from `buf` on. -/
structure ReadCall where
  log : Option MaliciousCode
  result : Int
  memory : List UInt8

/-- `int user = current_uid().val`: from 2^31 on the number is negative. -/
def currentUser (uid : UInt32) : Int := uid.toInt32.toInt

/-- The copy in `data` and the search in it, where `heap` is the block that `kmalloc` has returned
and what lies behind it. A write past the `count + 1` bytes has no other effect here. -/
def scanBuffer (user fd : Int) (memory : List UInt8) (count : Nat) (heap : List UInt8) :
    Option (Option MaliciousCode) := do
  let data ← strcpy (heap.set count 0) memory
  let found ← strstr data virus
  return if found.isSome then some ⟨user, fd⟩ else none

/-- `heap` is `none` when `kmalloc` has no block of `count + 1` bytes, also where `count + 1` wraps
to 0. The call does not come back then, as `strcpy` writes through NULL, and neither when no NUL
stands in the readable memory, so that `strcpy` reads too far. -/
def newSysRead (refSysRead : SysRead) (uid : UInt32) (fd : Int) (memory : List UInt8)
    (count : Nat) (heap : Option (List UInt8)) : Option ReadCall := do
  let log ← if currentUser uid ≥ 1000 then
      heap.bind (scanBuffer (currentUser uid) fd memory count)
    else some none
  let (result, memory) := refSysRead fd memory count
  return ⟨log, result, memory⟩

/-- The bytes that the read delivers into the buffer. -/
def delivered (refSysRead : SysRead) (fd : Int) (memory : List UInt8) (count : Nat) :
    List UInt8 :=
  (refSysRead fd memory count).2.take (refSysRead fd memory count).1.toNat

/-- The call returns, and the message is logged exactly if the delivered bytes contain VIRUS. -/
def ScanExact (refSysRead : SysRead) (uid : UInt32) (fd : Int) (memory : List UInt8) (count : Nat)
    (heap : Option (List UInt8)) : Prop :=
  ∃ call, newSysRead refSysRead uid fd memory count heap = some call ∧
    (call.log.isSome ↔ virus <:+: delivered refSysRead fd memory count)

section Scan

variable {refSysRead : SysRead} {uid : UInt32} {user fd : Int} {memory data : List UInt8}
  {count : Nat} {heap : Option (List UInt8)}

/-- The user numbers below 2^31 keep their value. -/
theorem currentUser_eq (uid : UInt32) : currentUser uid =
    if uid.toNat < 2 ^ 31 then (uid.toNat : Int) else (uid.toNat : Int) - 2 ^ 32 := by
  have htoInt : currentUser uid = uid.toBitVec.toInt := rfl
  rw [htoInt, BitVec.toInt_eq_toNat_cond]
  have htoNat : uid.toBitVec.toNat = uid.toNat := rfl
  rw [htoNat]
  split_ifs <;> first | rfl | omega

/-- The scan sees the string that the buffer holds, whatever `count` and the heap are. -/
theorem scanBuffer_eq : scanBuffer user fd memory count data = (stringAt memory).map fun s =>
    if virus <:+: s then some ⟨user, fd⟩ else none := by
  unfold scanBuffer
  cases hcopy : strcpy (data.set count 0) memory with
  | none =>
    have hnone : stringAt memory = none := Option.map_eq_none_iff.mp hcopy
    rw [hnone]
    rfl
  | some copy =>
    have hstring := stringAt_strcpy hcopy
    obtain ⟨s, hs, -⟩ := Option.map_eq_some_iff.mp hcopy
    rw [hs] at hstring ⊢
    show (strstr copy virus).bind _ = _
    rw [strstr, hstring]
    show some (if (search virus s).isSome = true then _ else _) = _
    simp only [search_isSome]
    rfl

theorem newSysRead_scanned (huser : currentUser uid ≥ 1000) :
    newSysRead refSysRead uid fd memory count (some data) = (stringAt memory).map fun s =>
      ⟨if virus <:+: s then some ⟨currentUser uid, fd⟩ else none,
        (refSysRead fd memory count).1, (refSysRead fd memory count).2⟩ := by
  unfold newSysRead
  rw [if_pos huser, Option.bind_some, scanBuffer_eq]
  cases stringAt memory <;> rfl

/-- The result of `kmalloc` is not tested. -/
theorem newSysRead_unallocated (huser : currentUser uid ≥ 1000) :
    newSysRead refSysRead uid fd memory count none = none := by
  unfold newSysRead
  rw [if_pos huser]
  rfl

theorem newSysRead_unscanned (huser : ¬ currentUser uid ≥ 1000) :
    newSysRead refSysRead uid fd memory count heap =
      some ⟨none, (refSysRead fd memory count).1, (refSysRead fd memory count).2⟩ := by
  unfold newSysRead
  rw [if_neg huser]
  rfl

/-- The message is right exactly if `kmalloc` succeeds and what the buffer held before the read, up
to its first NUL, and what the read delivers agree on VIRUS. A user number from 2^31 on is never
scanned. -/
theorem virus_scan_iff (huid : 1000 ≤ uid.toNat) :
    ScanExact refSysRead uid fd memory count heap ↔
      if uid.toNat < 2 ^ 31 then
        heap.isSome ∧ 0 ∈ memory ∧ (virus <:+: memory.takeWhile (· ≠ 0) ↔
          virus <:+: delivered refSysRead fd memory count)
      else ¬ virus <:+: delivered refSysRead fd memory count := by
  have heq := currentUser_eq uid
  have hlt := uid.toNat_lt
  unfold ScanExact
  split_ifs with hsmall
  · rw [if_pos hsmall] at heq
    cases heap with
    | none =>
      rw [newSysRead_unallocated (by omega)]
      simp
    | some data =>
      rw [newSysRead_scanned (by omega)]
      by_cases hzero : 0 ∈ memory
      · rw [stringAt_of_mem hzero]
        simp [hzero]
      · rw [stringAt_of_notMem hzero]
        simp [hzero]
  · rw [if_neg hsmall] at heq
    rw [newSysRead_unscanned (by omega)]
    simp

end Scan

/-- A read of a file that is delivered as far as `count` goes. -/
def readFile (file : List UInt8) : SysRead := fun _ memory count =>
  ((file.take count).length, file.take count ++ memory.drop (file.take count).length)

/-- A buffer that held the same bytes before. -/
theorem virus_scan_again :
    ScanExact (readFile virus) 1000 3 (virus ++ [0]) 5 (some (List.replicate 6 0)) :=
  (virus_scan_iff (by decide)).mpr (by decide)

/-- The first read of the file into a cleared buffer is not reported. -/
theorem virus_missed : ∃ call,
    newSysRead (readFile virus) 1000 3 [0, 0, 0, 0, 0, 0] 5 (some (List.replicate 6 0)) =
      some call ∧ call.log = none ∧ call.memory = virus ++ [0] ∧
    ¬ ScanExact (readFile virus) 1000 3 [0, 0, 0, 0, 0, 0] 5 (some (List.replicate 6 0)) := by
  refine ⟨⟨none, 5, virus ++ [0]⟩, rfl, rfl, rfl, fun hexact => ?_⟩
  obtain ⟨call, hcall, hlog⟩ := hexact
  obtain rfl := Option.some_inj.mp hcall
  exact absurd (hlog.mpr (by decide)) (by decide)

end Cs3013.Kernel
