import Cs3013.Kernel.Interceptors
import Cs3013.Library.Search
import Mathlib.Algebra.Group.Nat.Defs
import Mathlib.Data.Nat.Find

/-!
# The search for the system-call table

`find_sys_call_table` of both modules tries every eighth address from PAGE_OFFSET on. Its loop is
to stop at ULLONG_MAX, which no multiple of 8 reaches: behind the last address the search goes on
at address 0. Memory is read word by word, at any address.
-/
namespace Cs3013.Kernel

open Function Cs3013.Library.Search

/-- The word at an address. -/
abbrev Words := UInt64 → UInt64

def ullongMax : UInt64 := 0xFFFFFFFFFFFFFFFF

/-- `sct[__NR_close] == sys_close` for a table at the address. -/
def HoldsClose (words : Words) (sysClose address : UInt64) : Prop :=
  words (address + 8 * UInt64.ofNat nrClose) = sysClose

instance (words : Words) (sysClose : UInt64) : DecidablePred (HoldsClose words sysClose) :=
  fun _ => inferInstanceAs (Decidable (_ = _))

/-- `find_sys_call_table` with a bound on its rounds; 0 is NULL. -/
def findSysCallTable (words : Words) (sysClose pageOffset : UInt64) (fuel : Nat) :
    Option UInt64 :=
  (scan (· < ullongMax) (HoldsClose words sysClose) (· + 8) fuel pageOffset).map (·.getD 0)

/-- The search returns `r`. -/
def Returns (words : Words) (sysClose pageOffset r : UInt64) : Prop :=
  ∃ fuel, findSysCallTable words sysClose pageOffset fuel = some r

/-- The addresses PAGE_OFFSET + 8k, without wrapping. -/
def Above (pageOffset address : UInt64) : Prop :=
  ∃ k : Nat, address.toNat = pageOffset.toNat + 8 * k

/-- The search returns the lowest address whose slot holds `sys_close`, or else NULL, with which
`interceptor_start` fails and leaves the table as it is. -/
def SearchExact (words : Words) (sysClose pageOffset : UInt64) : Prop :=
  ∃ r, Returns words sysClose pageOffset r ∧
    ((Above pageOffset r ∧ HoldsClose words sysClose r ∧
        ∀ a, Above pageOffset a → HoldsClose words sysClose a → r ≤ a) ∨
      ((∀ a, Above pageOffset a → ¬ HoldsClose words sysClose a) ∧ r = 0 ∧
        ∀ m table, interceptorStart m (r ≠ 0) table = (-1, ⟨false, fun _ => .null⟩, table)))

section Wrapping

variable {words : Words} {sysClose pageOffset r : UInt64}

theorem toNat_iterate (pageOffset : UInt64) (k : Nat) :
    ((· + 8)^[k] pageOffset : UInt64).toNat = (pageOffset.toNat + 8 * k) % 2 ^ 64 := by
  induction k with
  | zero =>
    have hlt := pageOffset.toNat_lt
    rw [iterate_zero_apply, Nat.mul_zero, Nat.add_zero, Nat.mod_eq_of_lt hlt]
  | succ k ih =>
    have height : (8 : UInt64).toNat = 8 := rfl
    rw [iterate_succ_apply', UInt64.toNat_add, ih, height]
    omega

/-- A multiple of 8 is never ULLONG_MAX. -/
theorem iterate_lt (halign : 8 ∣ pageOffset.toNat) (k : Nat) :
    ((· + 8)^[k] pageOffset : UInt64) < ullongMax := by
  have hmax : ullongMax.toNat = 2 ^ 64 - 1 := rfl
  rw [UInt64.lt_iff_toNat_lt, toNat_iterate, hmax]
  omega

/-- The search returns exactly at the first round, wrapped or not, whose slot holds `sys_close`. -/
theorem returns_iff (halign : 8 ∣ pageOffset.toNat) : Returns words sysClose pageOffset r ↔
    ∃ k, (∀ j < k, ¬ HoldsClose words sysClose ((· + 8)^[j] pageOffset)) ∧
      HoldsClose words sysClose ((· + 8)^[k] pageOffset) ∧ r = (· + 8)^[k] pageOffset := by
  have hends : ∀ found, Library.Search.Ends (· < ullongMax) (HoldsClose words sysClose) (· + 8)
      pageOffset found ↔ _ := fun found => ends_iff_of_inside (iterate_lt halign)
  constructor
  · intro hreturns
    obtain ⟨fuel, hfuel⟩ := hreturns
    obtain ⟨found, hscan, rfl⟩ := Option.map_eq_some_iff.mp hfuel
    obtain ⟨k, hpass, hhit, rfl⟩ := (hends found).mp ⟨fuel, hscan⟩
    exact ⟨k, hpass, hhit, rfl⟩
  · intro hfirst
    obtain ⟨k, hpass, hhit, rfl⟩ := hfirst
    obtain ⟨fuel, hscan⟩ := (hends _).mpr ⟨k, hpass, hhit, rfl⟩
    exact ⟨fuel, by rw [findSysCallTable, hscan]; rfl⟩

/-- Until the wrap the rounds are the addresses in their order. -/
theorem above_iterate {k : Nat} (hk : pageOffset.toNat + 8 * k < 2 ^ 64) :
    ((· + 8)^[k] pageOffset : UInt64).toNat = pageOffset.toNat + 8 * k := by
  rw [toNat_iterate, Nat.mod_eq_of_lt hk]

theorem above_iff {a : UInt64} : Above pageOffset a ↔
    ∃ k, pageOffset.toNat + 8 * k < 2 ^ 64 ∧ a = (· + 8)^[k] pageOffset := by
  constructor
  · intro ha
    obtain ⟨k, hk⟩ := ha
    have hlt : pageOffset.toNat + 8 * k < 2 ^ 64 := hk ▸ a.toNat_lt
    exact ⟨k, hlt, UInt64.toNat_inj.mp (hk.trans (above_iterate hlt).symm)⟩
  · intro ha
    obtain ⟨k, hk, rfl⟩ := ha
    exact ⟨k, above_iterate hk⟩

/-- Where a slot above PAGE_OFFSET holds `sys_close`, the lowest one is found. -/
theorem returns_lowest (halign : 8 ∣ pageOffset.toNat)
    (hholds : ∃ a, Above pageOffset a ∧ HoldsClose words sysClose a) :
    ∃ r, Returns words sysClose pageOffset r ∧ Above pageOffset r ∧
      HoldsClose words sysClose r ∧
      ∀ a, Above pageOffset a → HoldsClose words sysClose a → r ≤ a := by
  have hround : ∃ k, HoldsClose words sysClose ((· + 8)^[k] pageOffset) := by
    obtain ⟨a, ha, hhold⟩ := hholds
    obtain ⟨k, -, rfl⟩ := above_iff.mp ha
    exact ⟨k, hhold⟩
  have hfirst : ∀ k, pageOffset.toNat + 8 * k < 2 ^ 64 →
      HoldsClose words sysClose ((· + 8)^[k] pageOffset) → Nat.find hround ≤ k :=
    fun k _ hhold => Nat.find_min' hround hhold
  obtain ⟨a, ha, hhold⟩ := hholds
  obtain ⟨k, hk, rfl⟩ := above_iff.mp ha
  have hle := hfirst k hk hhold
  have hlt : pageOffset.toNat + 8 * Nat.find hround < 2 ^ 64 := by omega
  refine ⟨_, (returns_iff halign).mpr ⟨Nat.find hround, fun j hj => Nat.find_min hround hj,
    Nat.find_spec hround, rfl⟩, above_iff.mpr ⟨_, hlt, rfl⟩, Nat.find_spec hround, ?_⟩
  intro b hb hbhold
  obtain ⟨j, hj, rfl⟩ := above_iff.mp hb
  have hjle := hfirst j hj hbhold
  rw [UInt64.le_iff_toNat_le, above_iterate hlt, above_iterate hj]
  omega

/-- Where none does, the next slot tried is the one of address 0. -/
theorem returns_zero (halign : 8 ∣ pageOffset.toNat)
    (hnone : ∀ a, Above pageOffset a → ¬ HoldsClose words sysClose a)
    (hzero : HoldsClose words sysClose 0) : Returns words sysClose pageOffset 0 := by
  have hlt := pageOffset.toNat_lt
  have hwrap : ((· + 8)^[(2 ^ 64 - pageOffset.toNat) / 8] pageOffset : UInt64) = 0 := by
    apply UInt64.toNat_inj.mp
    have hz : (0 : UInt64).toNat = 0 := rfl
    rw [toNat_iterate, hz]
    omega
  refine (returns_iff halign).mpr ⟨(2 ^ 64 - pageOffset.toNat) / 8, fun j hj => ?_, ?_, hwrap.symm⟩
  · exact hnone _ (above_iff.mpr ⟨j, by omega, rfl⟩)
  · rw [hwrap]
    exact hzero

/-- The search does what its caller relies on exactly if a slot above PAGE_OFFSET holds
`sys_close`, or the slot of address 0 does, whose address reads as NULL. -/
theorem table_search_iff (halign : 8 ∣ pageOffset.toNat) :
    SearchExact words sysClose pageOffset ↔
      (∃ a, Above pageOffset a ∧ HoldsClose words sysClose a) ∨ HoldsClose words sysClose 0 := by
  constructor
  · intro hexact
    obtain ⟨r, hreturns, ⟨habove, hhold, -⟩ | ⟨-, rfl, -⟩⟩ := hexact
    · exact .inl ⟨r, habove, hhold⟩
    · obtain ⟨k, -, hhold, hr⟩ := (returns_iff halign).mp hreturns
      rw [← hr] at hhold
      exact .inr hhold
  · intro hcases
    by_cases hholds : ∃ a, Above pageOffset a ∧ HoldsClose words sysClose a
    · obtain ⟨r, hreturns, hlowest⟩ := returns_lowest halign hholds
      exact ⟨r, hreturns, .inl hlowest⟩
    · have hnone : ∀ a, Above pageOffset a → ¬ HoldsClose words sysClose a :=
        fun a ha hhold => hholds ⟨a, ha, hhold⟩
      have hreturns := returns_zero halign hnone (hcases.resolve_left hholds)
      exact ⟨0, hreturns, .inr ⟨hnone, rfl, fun m table => rfl⟩⟩

/-- A table at PAGE_OFFSET itself. -/
theorem table_search_first :
    SearchExact (fun a => if a = 0xFFFF880000000018 then 7 else 0) 7 0xFFFF880000000000 :=
  (table_search_iff (by decide)).mpr (.inl ⟨0xFFFF880000000000, ⟨0, rfl⟩, by decide⟩)

/-- Without a table in memory the search goes round for ever. -/
theorem search_never_ends : (∀ r, ¬ Returns (fun _ => 0) 7 0xFFFF880000000000 r) ∧
    ¬ SearchExact (fun _ => 0) 7 0xFFFF880000000000 := by
  have hnever : ∀ r, ¬ Returns (fun _ => 0) 7 0xFFFF880000000000 r := by
    intro r hreturns
    obtain ⟨k, -, hhold, -⟩ := (returns_iff (by decide)).mp hreturns
    exact absurd hhold (by decide : ¬ (0 : UInt64) = 7)
  refine ⟨hnever, fun hexact => ?_⟩
  obtain ⟨r, hreturns, -⟩ := hexact
  exact hnever r hreturns

end Wrapping

end Cs3013.Kernel
