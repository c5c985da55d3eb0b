import Mathlib.Logic.Function.Basic
import Mathlib.Data.List.Basic

/-!
# Modules that hook into one table

A module overwrites some entries of a table when it is loaded and writes back what it has saved of
them when it is unloaded. Several modules with different entries can be loaded and unloaded in any
order: the loaded ones hold their entries, and every other entry has its first value, as long as
each module that hooks it saves it.
-/
namespace Cs3013.Library.Interception

open Function

/-- One entry of a module: its handler, and whether the old one is saved. -/
structure Hook (α : Type) where
  number : Nat
  handler : α
  saves : Bool

section Operations

variable {α : Type} (null : α) (hooks : List (Hook α)) (ref t : Nat → α)

def numbers : List Nat := hooks.map Hook.number

/-- The saved handlers; `null` where nothing is saved. -/
def saved : Nat → α :=
  (hooks.filter Hook.saves).foldl (fun ref hook => update ref hook.number (t hook.number))
    fun _ => null

def install : Nat → α := hooks.foldl (fun t hook => update t hook.number hook.handler) t

def restore : Nat → α := hooks.foldl (fun t hook => update t hook.number (ref hook.number)) t

end Operations

section Rules

variable {α : Type} {null : α} {hooks : List (Hook α)} {ref t : Nat → α} {n : Nat}

theorem mem_numbers_cons {hook : Hook α} :
    n ∈ numbers (hook :: hooks) ↔ n = hook.number ∨ n ∈ numbers hooks := List.mem_cons

/-- Entries written from one source hold its values, the others are as before. -/
theorem foldl_update (f : Nat → α) (hooks : List (Hook α)) (t : Nat → α) (n : Nat) :
    hooks.foldl (fun t hook => update t hook.number (f hook.number)) t n =
      if n ∈ numbers hooks then f n else t n := by
  induction hooks generalizing t with
  | nil => exact (if_neg List.not_mem_nil).symm
  | cons hook hooks ih =>
    rw [List.foldl_cons, ih]
    by_cases hn : n ∈ numbers hooks
    · rw [if_pos hn, if_pos (mem_numbers_cons.mpr (.inr hn))]
    · rw [if_neg hn]
      by_cases hfirst : n = hook.number
      · subst hfirst
        rw [update_self, if_pos (mem_numbers_cons.mpr (.inl rfl))]
      · rw [update_of_ne hfirst]
        exact (if_neg fun hmem => (mem_numbers_cons.mp hmem).elim hfirst hn).symm

theorem restore_apply : restore hooks ref t n = if n ∈ numbers hooks then ref n else t n :=
  foldl_update ref hooks t n

theorem saved_apply : saved null hooks t n =
    if n ∈ numbers (hooks.filter Hook.saves) then t n else null :=
  foldl_update t (hooks.filter Hook.saves) (fun _ => null) n

theorem install_of_notMem (h : n ∉ numbers hooks) : install hooks t n = t n := by
  induction hooks generalizing t with
  | nil => rfl
  | cons hook hooks ih =>
    rw [mem_numbers_cons, not_or] at h
    rw [install, List.foldl_cons]
    exact (ih h.2).trans (update_of_ne h.1 _ t)

end Rules

/-! ## Several modules -/

section Modules

variable {ι α : Type} {null : α} {hooks : ι → List (Hook α)} {t₀ t : Nat → α}
  {ref : ι → Option (Nat → α)} {i : ι} {n : Nat} {hook : Hook α}

theorem install_of_mem (hnodup : (numbers (hooks i)).Nodup) (hmem : hook ∈ hooks i) (t : Nat → α) :
    install (hooks i) t hook.number = hook.handler := by
  generalize hooks i = hs at hnodup hmem
  induction hs generalizing t with
  | nil => cases hmem
  | cons first hs ih =>
    obtain ⟨hnot, hnodup⟩ := List.nodup_cons.mp hnodup
    rw [install, List.foldl_cons]
    rcases List.mem_cons.mp hmem with rfl | hmem
    · exact (install_of_notMem hnot).trans (update_self _ _ _)
    · exact ih _ hnodup hmem

/-- Every module that hooks the entry saves it. -/
def Safe (hooks : ι → List (Hook α)) (n : Nat) : Prop :=
  ∀ i, ∀ hook ∈ hooks i, hook.number = n → hook.saves = true

/-- The first value of the entry, or `null` where some module does not save it. -/
def Original (null : α) (hooks : ι → List (Hook α)) (t₀ : Nat → α) (n : Nat) (a : α) : Prop :=
  a = t₀ n ∨ ¬ Safe hooks n ∧ a = null

/-- The entries of the loaded modules hold their handlers, with the original ones saved, and the
others hold the original ones. -/
structure Mediated (null : α) (hooks : ι → List (Hook α)) (t₀ t : Nat → α)
    (ref : ι → Option (Nat → α)) : Prop where
  installed : ∀ i, ref i ≠ none → ∀ hook ∈ hooks i, t hook.number = hook.handler
  kept : ∀ i r, ref i = some r → ∀ hook ∈ hooks i,
    Original null hooks t₀ hook.number (r hook.number)
  outside : ∀ n, (∀ i, ref i ≠ none → n ∉ numbers (hooks i)) → Original null hooks t₀ n (t n)

theorem Original.eq {a : α} (h : Original null hooks t₀ n a) (hsafe : Safe hooks n) : a = t₀ n :=
  h.resolve_right fun hnot => hnot.1 hsafe

theorem mediated_start : Mediated null hooks t₀ t₀ fun _ => none where
  installed _ hi := absurd rfl hi
  kept _ _ hr := by cases hr
  outside _ _ := .inl rfl

theorem Original.saved (hmem : hook ∈ hooks i)
    (h : Original null hooks t₀ hook.number (t hook.number)) :
    Original null hooks t₀ hook.number (saved null (hooks i) t hook.number) := by
  rw [saved_apply]
  split_ifs with hsaved
  · exact h
  · refine .inr ⟨fun hsafe => hsaved ?_, rfl⟩
    exact List.mem_map_of_mem (List.mem_filter.mpr ⟨hmem, hsafe i hook hmem rfl⟩)

variable [DecidableEq ι]

theorem Mediated.load (h : Mediated null hooks t₀ t ref) (hi : ref i = none)
    (hnodup : (numbers (hooks i)).Nodup)
    (hapart : ∀ j, j ≠ i → ∀ n ∈ numbers (hooks i), n ∉ numbers (hooks j)) :
    Mediated null hooks t₀ (install (hooks i) t)
      (update ref i (some (saved null (hooks i) t))) where
  installed j hj hook hmem := by
    by_cases hji : j = i
    · subst hji
      exact install_of_mem hnodup hmem t
    · rw [update_of_ne hji] at hj
      have hnot : hook.number ∉ numbers (hooks i) := fun hn =>
        hapart j hji _ hn (List.mem_map_of_mem hmem)
      rw [install_of_notMem hnot]
      exact h.installed j hj hook hmem
  kept j r hr hook hmem := by
    by_cases hji : j = i
    · subst hji
      rw [update_self] at hr
      obtain rfl := Option.some_inj.mp hr
      apply Original.saved hmem
      -- no loaded module hooks an entry of this one
      apply h.outside
      intro k hk
      have hkj : k ≠ j := fun heq => hk (heq ▸ hi)
      exact hapart k hkj _ (List.mem_map_of_mem hmem)
    · rw [update_of_ne hji] at hr
      exact h.kept j r hr hook hmem
  outside n hn := by
    have hnot : n ∉ numbers (hooks i) := by
      apply hn
      rw [update_self]
      exact Option.some_ne_none _
    rw [install_of_notMem hnot]
    apply h.outside n
    intro j hj
    by_cases hji : j = i
    · subst hji
      exact hnot
    · apply hn
      rwa [update_of_ne hji]

theorem Mediated.unload {r : Nat → α} (h : Mediated null hooks t₀ t ref) (hi : ref i = some r)
    (hapart : ∀ j, j ≠ i → ∀ n ∈ numbers (hooks i), n ∉ numbers (hooks j)) :
    Mediated null hooks t₀ (restore (hooks i) r t) (update ref i none) where
  installed j hj hook hmem := by
    by_cases hji : j = i
    · subst hji
      rw [update_self] at hj
      exact absurd rfl hj
    · rw [update_of_ne hji] at hj
      have hnot : hook.number ∉ numbers (hooks i) := fun hn =>
        hapart j hji _ hn (List.mem_map_of_mem hmem)
      rw [restore_apply, if_neg hnot]
      exact h.installed j hj hook hmem
  kept j r' hr hook hmem := by
    by_cases hji : j = i
    · subst hji
      rw [update_self] at hr
      cases hr
    · rw [update_of_ne hji] at hr
      exact h.kept j r' hr hook hmem
  outside n hn := by
    rw [restore_apply]
    split_ifs with hmem
    · obtain ⟨hook, hook_mem, rfl⟩ := List.mem_map.mp hmem
      exact h.kept i r hi hook hook_mem
    · apply h.outside n
      intro j hj
      by_cases hji : j = i
      · subst hji
        exact hmem
      · apply hn
        rwa [update_of_ne hji]

end Modules

end Cs3013.Library.Interception
