import Mathlib.Data.List.TakeWhile
import Mathlib.Tactic.Common

/-!
# Strings in memory

Memory is the list of the bytes that can be read from an address on. A string ends at the first
NUL; a function that finds none reads on to an address that cannot be read.
-/
namespace Cs3013.Library.CMemory

variable {α : Type} [DecidableEq α] {needle l : List α}

/-- The string at an address. -/
def stringAt (memory : List UInt8) : Option (List UInt8) :=
  if 0 ∈ memory then some (memory.takeWhile (· ≠ 0)) else none

/-- The memory of the destination after `strcpy(dest, src)`. -/
def strcpy (dest src : List UInt8) : Option (List UInt8) :=
  (stringAt src).map fun s => s ++ 0 :: dest.drop (s.length + 1)

/-- The bytes of the string from a place on, each with its place. The NUL is the last of them; where
there is none, they go on to the end of what can be read. -/
def cells (start : Nat) : List UInt8 → List (Nat × UInt8)
  | [] => []
  | b :: memory => (start, b) :: if b = 0 then [] else cells (start + 1) memory

/-- The memory after some bytes have been written, in their order. -/
def store (memory : List UInt8) (writes : List (Nat × UInt8)) : List UInt8 :=
  writes.foldl (fun memory write => memory.set write.1 write.2) memory

/-- The first place where the needle begins. -/
def search (needle : List α) : List α → Option Nat
  | [] => if needle = [] then some 0 else none
  | x :: l => if needle <+: x :: l then some 0 else (search needle l).map (· + 1)

/-- `strstr(haystack, needle)`, as an index; the outer `none` is a read too far. -/
def strstr (haystack needle : List UInt8) : Option (Option Nat) :=
  (stringAt haystack).map (search needle)

theorem search_isSome : (search needle l).isSome ↔ needle <:+: l := by
  induction l with
  | nil =>
    rw [search, List.infix_nil]
    split_ifs with hnil
    · exact ⟨fun _ => hnil, fun _ => rfl⟩
    · exact ⟨nofun, fun h => absurd h hnil⟩
  | cons x l ih =>
    rw [search, List.infix_cons_iff]
    split_ifs with hprefix
    · exact ⟨fun _ => .inl hprefix, fun _ => rfl⟩
    · rw [Option.isSome_map, ih]
      exact ⟨.inr, fun h => h.resolve_left hprefix⟩

theorem stringAt_of_mem {memory : List UInt8} (h : 0 ∈ memory) :
    stringAt memory = some (memory.takeWhile (· ≠ 0)) := if_pos h

theorem stringAt_of_notMem {memory : List UInt8} (h : 0 ∉ memory) : stringAt memory = none :=
  if_neg h

/-- What has been terminated is read back. -/
theorem stringAt_append {s : List UInt8} (hs : 0 ∉ s) (rest : List UInt8) :
    stringAt (s ++ 0 :: rest) = some s := by
  have hall : ∀ b ∈ s, decide (b ≠ 0) = true := fun b hb => by
    rw [decide_eq_true_eq]
    rintro rfl
    exact hs hb
  rw [stringAt_of_mem (by simp), List.takeWhile_append_of_pos hall,
    List.takeWhile_cons_of_neg (by simp), List.append_nil]

theorem stringAt_eq_some {memory s : List UInt8} (h : stringAt memory = some s) :
    0 ∉ s ∧ ∃ rest, memory = s ++ 0 :: rest := by
  have hmem : 0 ∈ memory := by
    by_contra hnot
    rw [stringAt_of_notMem hnot] at h
    nomatch h
  obtain ⟨before, rest, rfl, hbefore⟩ := List.eq_append_cons_of_mem hmem
  rw [stringAt_append hbefore] at h
  obtain rfl := Option.some_inj.mp h
  exact ⟨hbefore, rest, rfl⟩

/-- The copy is the string of the source. -/
theorem stringAt_strcpy {dest src copy : List UInt8} (h : strcpy dest src = some copy) :
    stringAt copy = stringAt src := by
  obtain ⟨s, hs, rfl⟩ := Option.map_eq_some_iff.mp h
  rw [hs]
  exact stringAt_append (stringAt_eq_some hs).1 _

section Cells

variable {memory s rest dest src copy : List UInt8} {writes : List (Nat × UInt8)}
  {start place n : Nat} {b : UInt8}

theorem le_of_mem_cells (h : (place, b) ∈ cells start memory) : start ≤ place := by
  induction memory generalizing start with
  | nil => nomatch h
  | cons c memory ih =>
    rw [cells, List.mem_cons] at h
    rcases h with heq | htail
    · rw [(Prod.mk.inj heq).1]
    · split_ifs at htail
      · nomatch htail
      · exact Nat.le_of_succ_le (ih htail)

/-- A byte belongs to the string exactly if no NUL stands before it. -/
theorem add_mem_cells : (start + place, b) ∈ cells start memory ↔
    memory[place]? = some b ∧ 0 ∉ memory.take place := by
  induction memory generalizing start place with
  | nil => simp [cells]
  | cons c memory ih =>
    rw [cells, List.mem_cons]
    cases place with
    | zero =>
      have hlater : (start, b) ∉ if c = 0 then [] else cells (start + 1) memory := by
        intro hmem
        split_ifs at hmem
        · nomatch hmem
        · exact absurd (le_of_mem_cells hmem) (Nat.not_succ_le_self start)
      simp [hlater, eq_comm]
    | succ place =>
      have hne : ¬ start + 1 + place = start := by omega
      rw [show start + (place + 1) = start + 1 + place from by omega, Prod.mk.injEq]
      split_ifs with hc
      · simp [hc, hne]
      · rw [ih, List.getElem?_cons_succ, List.take_succ_cons, List.mem_cons]
        simp [hne, Ne.symm hc]

theorem mem_cells : (place, b) ∈ cells 0 memory ↔
    memory[place]? = some b ∧ 0 ∉ memory.take place := by
  rw [← add_mem_cells, Nat.zero_add]

theorem zero_mem_take_succ :
    0 ∈ memory.take (n + 1) ↔ 0 ∈ memory.take n ∨ memory[n]? = some 0 := by
  rw [List.take_add_one, List.mem_append, Option.mem_toList]

/-- Behind the bytes of the string other than the NUL there is still the NUL. -/
theorem succ_lt_of_mem_cells (hzero : 0 ∈ memory.take n) (hb : b ≠ 0)
    (h : (place, b) ∈ cells 0 memory) : place + 1 < n := by
  obtain ⟨hbyte, hbefore⟩ := mem_cells.mp h
  have hnext : 0 ∉ memory.take (place + 1) := by
    rw [zero_mem_take_succ, hbyte, Option.some_inj]
    exact not_or.mpr ⟨hbefore, hb⟩
  by_contra! hle
  exact hnext (List.take_subset_take_left memory hle hzero)

/-- The string ends within `n` bytes, or the readable memory does. -/
theorem cells_lt_iff : (∀ cell ∈ cells 0 memory, cell.1 < n) ↔
    0 ∈ memory.take n ∨ memory.length ≤ n := by
  constructor
  · intro hall
    by_contra! hlong
    have hcell : (n, memory[n]) ∈ cells 0 memory :=
      mem_cells.mpr ⟨List.getElem?_eq_getElem hlong.2, hlong.1⟩
    exact absurd (hall _ hcell) (lt_irrefl n)
  · rintro hshort ⟨place, b⟩ hmem
    obtain ⟨hbyte, hbefore⟩ := mem_cells.mp hmem
    by_contra! hle
    rcases hshort with hzero | hlength
    · exact hbefore (List.take_subset_take_left memory hle hzero)
    · have hlt := (List.getElem?_eq_some_iff.mp hbyte).1
      omega

/-- What lies behind the NUL does not matter. -/
theorem cells_append (hs : 0 ∉ s) (rest : List UInt8) :
    cells start (s ++ 0 :: rest) = cells start (s ++ [0]) := by
  induction s generalizing start with
  | nil => simp [cells]
  | cons b s ih =>
    rw [List.mem_cons, not_or] at hs
    simp only [List.cons_append, cells, if_neg (Ne.symm hs.1), ih hs.2]

/-- The copy has the bytes of the source at the same places. -/
theorem cells_strcpy (h : strcpy dest src = some copy) : cells 0 copy = cells 0 src := by
  obtain ⟨s, hstring, rfl⟩ := Option.map_eq_some_iff.mp h
  obtain ⟨hs, rest, rfl⟩ := stringAt_eq_some hstring
  exact (cells_append hs _).trans (cells_append hs rest).symm

/-- The bytes of the string and its NUL. -/
theorem cells_bytes (h : stringAt memory = some s) :
    (cells start memory).map Prod.snd = s ++ [0] := by
  obtain ⟨hs, rest, rfl⟩ := stringAt_eq_some h
  clear h
  rw [cells_append hs]
  induction s generalizing start with
  | nil => rfl
  | cons b s ih =>
    rw [List.mem_cons, not_or] at hs
    simp only [List.cons_append, cells, if_neg (Ne.symm hs.1), List.map_cons, ih hs.2]

@[simp] theorem store_nil : store memory [] = memory := rfl

@[simp] theorem store_cons : store memory ((place, b) :: writes) =
    store (memory.set place b) writes := rfl

/-- A byte that is not written stays. -/
theorem store_outside (h : ∀ write ∈ writes, write.1 ≠ place) :
    (store memory writes)[place]? = memory[place]? := by
  induction writes generalizing memory with
  | nil => rfl
  | cons write writes ih =>
    rw [List.forall_mem_cons] at h
    rw [store_cons, ih h.2, List.getElem?_set_ne h.1]

/-- Writing the string behind what has been written, byte by byte. -/
theorem store_cells (hs : 0 ∉ s) (written : List UInt8) (hroom : s.length < dest.length) :
    store (written ++ dest) (cells written.length (s ++ [0])) =
      written ++ (s ++ 0 :: dest.drop (s.length + 1)) := by
  induction s generalizing written dest with
  | nil =>
    obtain ⟨d, dest, rfl⟩ := List.exists_cons_of_length_pos hroom
    simp [cells, List.set_append_right]
  | cons b s ih =>
    obtain ⟨d, dest, rfl⟩ := List.exists_cons_of_length_pos (Nat.zero_lt_of_lt hroom)
    rw [List.mem_cons, not_or] at hs
    have hnext : store (written ++ [b] ++ dest)
        (cells (written ++ [b]).length (s ++ [0])) = _ := ih hs.2 _ (by simpa using hroom)
    simpa [cells, Ne.symm hs.1, List.set_append_right] using hnext

/-- `strcpy` writes the bytes of the source at their places, one by one. -/
theorem store_strcpy (h : strcpy dest src = some copy)
    (hroom : ∀ s ∈ stringAt src, s.length < dest.length) :
    store dest (cells 0 src) = copy := by
  obtain ⟨s, hstring, rfl⟩ := Option.map_eq_some_iff.mp h
  have hlength := hroom s hstring
  obtain ⟨hs, rest, rfl⟩ := stringAt_eq_some hstring
  rw [cells_append hs]
  exact store_cells hs [] hlength

end Cells

end Cs3013.Library.CMemory
