import Cs3013.Kernel.VirusScan

/-!
# The copy that the virus scan makes

`data` gets `count + 1` bytes and a NUL as the last of them, as for a copy of `count` bytes. But
`strcpy` goes on to the first NUL of the user's memory, wherever that is.
-/
namespace Cs3013.Kernel

open Cs3013.Library.CMemory

/-- What a scan does to `data`: the bytes written, in their order, and the bytes that `strstr`
reads, `none` when it is not reached. -/
structure ScanTrace where
  writes : List (Nat × UInt8)
  examined : Option (List (Nat × UInt8))

/-- `data[count] = '\0'`, `strcpy(data, buf)` and `strstr(data, "VIRUS")`, which takes the length of
the string first. Without a NUL, `strcpy` writes all that can be read and then faults. -/
def scanTrace (memory : List UInt8) (count : Nat) (heap : List UInt8) : ScanTrace where
  writes := (count, 0) :: cells 0 memory
  examined := (strcpy (heap.set count 0) memory).map (cells 0)

/-- The scan writes into the `count + 1` bytes of `data` only, and what it examines then are bytes
of the user's buffer before `count`. `nul` says whether the NUL at the end counts as one. -/
def ScanTrace.Inside (nul : Bool) (memory : List UInt8) (count : Nat) (t : ScanTrace) : Prop :=
  (∀ write ∈ t.writes, write.1 ≤ count) ∧
    ∃ examined, t.examined = some examined ∧
      ∀ cell ∈ examined, (cell.2 ≠ 0 ∨ nul = true) →
        cell.1 < count ∧ memory[cell.1]? = some cell.2

/-- `kmalloc` has given a block, as for `newSysRead`, and the scan stays inside. -/
def ScanInside (nul : Bool) (memory : List UInt8) (count : Nat) (heap : Option (List UInt8)) :
    Prop :=
  ∃ data, heap = some data ∧ (scanTrace memory count data).Inside nul memory count

section Copy

variable {user fd : Int} {memory heap data : List UInt8} {count place : Nat} {nul : Bool}

/-- The bytes of `data` that are examined stand at the same places in the user's memory. -/
theorem scanTrace_examined : (scanTrace memory count heap).examined =
    if 0 ∈ memory then some (cells 0 memory) else none := by
  show (strcpy (heap.set count 0) memory).map (cells 0) = _
  split_ifs with hzero
  · obtain ⟨data, hdata⟩ : ∃ data, strcpy (heap.set count 0) memory = some data := by
      rw [strcpy, stringAt_of_mem hzero]
      exact ⟨_, rfl⟩
    rw [hdata, Option.map_some, cells_strcpy hdata]
  · rw [strcpy, stringAt_of_notMem hzero, Option.map_none, Option.map_none]

/-- The verdict is about what has been examined. -/
theorem scanBuffer_examined : scanBuffer user fd memory count heap =
    (scanTrace memory count heap).examined.map fun examined =>
      if virus <:+: examined.map Prod.snd then some ⟨user, fd⟩ else none := by
  rw [scanBuffer_eq, scanTrace_examined]
  split_ifs with hzero
  · have hstring := stringAt_of_mem hzero
    rw [hstring, Option.map_some, Option.map_some, cells_bytes hstring]
    -- VIRUS does not end with the NUL that is examined last
    have hnul : virus <:+: memory.takeWhile (· ≠ 0) ++ [0] ↔
        virus <:+: memory.takeWhile (· ≠ 0) := by
      rw [List.infix_concat_iff]
      refine ⟨fun h => h.resolve_left fun hsuffix => ?_, .inr⟩
      have hlast := hsuffix.getLast (by decide)
      rw [List.getLast_append_singleton] at hlast
      exact absurd hlast (by decide)
    simp only [hnul]
  · rw [stringAt_of_notMem hzero]
    rfl

/-- The writes of the trace leave what `strcpy` leaves. -/
theorem store_scanTrace (hcopy : strcpy (heap.set count 0) memory = some data)
    (hroom : ∀ s ∈ stringAt memory, s.length < heap.length) :
    store heap (scanTrace memory count heap).writes = data := by
  show store heap ((count, 0) :: cells 0 memory) = data
  rw [store_cons]
  apply store_strcpy hcopy
  intro s hs
  rw [List.length_set]
  exact hroom s hs

/-- The writes stay inside `data` when the string does, or when the memory cannot be read
further. -/
theorem writes_inside_iff : (∀ write ∈ (scanTrace memory count heap).writes, write.1 ≤ count) ↔
    0 ∈ memory.take (count + 1) ∨ memory.length ≤ count + 1 := by
  rw [← cells_lt_iff]
  show (∀ write ∈ (count, 0) :: cells 0 memory, write.1 ≤ count) ↔ _
  rw [List.forall_mem_cons]
  simp only [Nat.lt_succ_iff, le_refl, true_and]

/-- What lies behind `data` on the heap then keeps its bytes. -/
theorem behind_data_kept (h : 0 ∈ memory.take (count + 1)) (hbehind : count < place) :
    (store heap (scanTrace memory count heap).writes)[place]? = heap[place]? := by
  apply store_outside
  intro write hwrite
  have hle := writes_inside_iff.mpr (.inl h) write hwrite
  omega

/-- On a block, exactly if a NUL ends the string in time. -/
theorem trace_inside_iff : (scanTrace memory count heap).Inside nul memory count ↔
    0 ∈ memory.take (if nul then count else count + 1) := by
  unfold ScanTrace.Inside
  rw [writes_inside_iff, scanTrace_examined]
  constructor
  · rintro ⟨hwrites, examined, hexamined, hall⟩
    split_ifs at hexamined with hzero
    obtain rfl := Option.some_inj.mp hexamined
    have hshort : 0 ∈ memory.take (count + 1) := by
      rcases hwrites with htake | hlength
      · exact htake
      · rwa [List.take_of_length_le hlength]
    cases nul with
    | false => exact hshort
    | true =>
      by_contra hbefore
      -- the NUL is then the byte at `count`, and it is examined
      have hlast := (zero_mem_take_succ.mp hshort).resolve_left hbefore
      have hlt := (hall _ (mem_cells.mpr ⟨hlast, hbefore⟩) (.inr rfl)).1
      exact absurd hlt (lt_irrefl count)
  · intro htake
    have hshort : 0 ∈ memory.take (count + 1) := by
      cases nul with
      | false => exact htake
      | true => exact zero_mem_take_succ.mpr (.inl htake)
    refine ⟨.inl hshort, cells 0 memory, if_pos (List.mem_of_mem_take hshort), ?_⟩
    rintro ⟨place, b⟩ hcell hcounts
    refine ⟨?_, (mem_cells.mp hcell).1⟩
    cases nul with
    | false =>
      have hb : b ≠ 0 := hcounts.resolve_right nofun
      exact Nat.succ_lt_succ_iff.mp (succ_lt_of_mem_cells hshort hb hcell)
    | true => exact cells_lt_iff.mpr (.inl htake) _ hcell

/-- The scan stays inside exactly if `kmalloc` succeeds and a NUL ends the string in time: among the
first `count + 1` bytes, or among the first `count` if the NUL counts as well. -/
theorem scan_inside_iff {block : Option (List UInt8)} : ScanInside nul memory count block ↔
    block.isSome ∧ 0 ∈ memory.take (if nul then count else count + 1) := by
  constructor
  · intro hinside
    obtain ⟨data, rfl, htrace⟩ := hinside
    exact ⟨rfl, trace_inside_iff.mp htrace⟩
  · intro hends
    obtain ⟨hblock, htake⟩ := hends
    obtain ⟨data, rfl⟩ := Option.isSome_iff_exists.mp hblock
    exact ⟨data, rfl, trace_inside_iff.mpr htake⟩

end Copy

/-- Two bytes of ABCDE: the six of the string are written into an allocation of three. -/
theorem scan_overrun :
    (5, 0) ∈ (scanTrace [65, 66, 67, 68, 69, 0] 2 (List.replicate 8 0)).writes ∧
    (∃ examined, (scanTrace [65, 66, 67, 68, 69, 0] 2 (List.replicate 8 0)).examined =
      some examined ∧ (4, 69) ∈ examined) ∧
    ∀ nul, ¬ ScanInside nul [65, 66, 67, 68, 69, 0] 2 (some (List.replicate 8 0)) := by
  refine ⟨by decide, ⟨_, rfl, by decide⟩, ?_⟩
  intro nul hinside
  obtain ⟨data, hdata, htrace⟩ := hinside
  obtain rfl := Option.some_inj.mp hdata
  exact absurd (htrace.1 (5, 0) (by decide)) (by decide)

end Cs3013.Kernel
