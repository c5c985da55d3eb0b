import Cs3013.Library.Interception
import Cs3013.Library.Transition

/-!
# The system-call table under the two modules

`interceptor_start` and `interceptor_end` of `part1.c` and `kernsysinfo.c`. Both modules write into
the same table, at different call numbers. `part1` writes back four entries and has saved three.
Whether the search for the table succeeds is left open; where it does, it has found the table.
-/
namespace Cs3013.Kernel

open Function Cs3013.Library.Interception Cs3013.Library.Transition

/-- An entry of the table: NULL, a function of one of the modules, or any other address. -/
inductive Handler where
  | null
  | newSysOpen
  | newSysClose
  | newSysRead
  | newSysCs3013Syscall1
  | newCs3013Syscall2
  | other (address : Nat)
  deriving DecidableEq, Repr

abbrev SysCallTable := Nat → Handler

def nrRead : Nat := 0

def nrOpen : Nat := 2

def nrClose : Nat := 3

def nrCs3013Syscall1 : Nat := 333

def nrCs3013Syscall2 : Nat := 334

inductive Module where
  | part1
  | kernsysinfo
  deriving DecidableEq, Repr

/-- The entries that `interceptor_start` replaces, in its order. `ref_sys_cs3013_syscall1` is never
assigned. -/
def Module.hooks : Module → List (Hook Handler)
  | .part1 => [⟨nrOpen, .newSysOpen, true⟩, ⟨nrClose, .newSysClose, true⟩,
      ⟨nrRead, .newSysRead, true⟩, ⟨nrCs3013Syscall1, .newSysCs3013Syscall1, false⟩]
  | .kernsysinfo => [⟨nrCs3013Syscall2, .newCs3013Syscall2, true⟩]

/-- The static variables of a module: whether `sys_call_table` is not NULL, and the handlers `ref_*`
by their call numbers. -/
structure Statics where
  sysCallTable : Bool
  ref : Nat → Handler

/-- The result, the static variables and the table; `found` is the result of
`find_sys_call_table`. -/
def interceptorStart (m : Module) (found : Bool) (table : SysCallTable) :
    Int × Statics × SysCallTable :=
  if found then (0, ⟨true, saved .null m.hooks table⟩, install m.hooks table)
  else (-1, ⟨false, fun _ => .null⟩, table)

def interceptorEnd (m : Module) (v : Statics) (table : SysCallTable) : SysCallTable :=
  if v.sysCallTable then restore m.hooks v.ref table else table

/-- The table and the static variables of the modules that are loaded. -/
structure Interceptors where
  table : SysCallTable
  loaded : Module → Option Statics

inductive Event where
  | load (m : Module) (found : Bool)
  | unload (m : Module)
  deriving DecidableEq, Repr

/-- A module that is not loaded can be loaded, and stays so if `interceptor_start` fails; a loaded
one can be unloaded. -/
def Interceptors.step (s : Interceptors) : Event → Option Interceptors
  | .load m found =>
    match s.loaded m, interceptorStart m found s.table with
    | none, (result, v, table) =>
      some ⟨table, if result = 0 then update s.loaded m (some v) else s.loaded⟩
    | some _, _ => none
  | .unload m =>
    (s.loaded m).map fun v => ⟨interceptorEnd m v s.table, update s.loaded m none⟩

/-- The loads and unloads from a given table on. -/
def interceptors (table : SysCallTable) : System Interceptors Event where
  init s := s = ⟨table, fun _ => none⟩
  step s e s' := s.step e = some s'

/-- Every entry that no loaded module replaces is as in `table`: all entries when none is loaded. -/
def Restored (table : SysCallTable) (s : Interceptors) : Prop :=
  ∀ n, (∀ m, s.loaded m ≠ none → n ∉ numbers m.hooks) → s.table n = table n

section Steps

variable {table : SysCallTable} {s s' : Interceptors} {e : Event} {h : List Event} {n : Nat}

/-- What a step can be. -/
theorem step_cases (hstep : (interceptors table).step s e s') :
    (∃ m, e = .load m true ∧ s.loaded m = none ∧ s' = ⟨install m.hooks s.table,
      update s.loaded m (some ⟨true, saved .null m.hooks s.table⟩)⟩) ∨
    (∃ m, e = .load m false ∧ s' = s) ∨
    (∃ m v, e = .unload m ∧ s.loaded m = some v ∧
      s' = ⟨interceptorEnd m v s.table, update s.loaded m none⟩) := by
  have hnext : s.step e = some s' := hstep
  cases e with
  | load m found =>
    cases hm : s.loaded m with
    | none =>
      cases found with
      | true =>
        simp only [Interceptors.step, hm, interceptorStart, if_true] at hnext
        exact .inl ⟨m, rfl, hm, (Option.some_inj.mp hnext).symm⟩
      | false =>
        have hne : ¬ (-1 : Int) = 0 := by decide
        simp only [Interceptors.step, hm, interceptorStart, Bool.false_eq_true, if_false,
          hne] at hnext
        exact .inr (.inl ⟨m, rfl, (Option.some_inj.mp hnext).symm⟩)
    | some v =>
      simp only [Interceptors.step, hm] at hnext
      cases hnext
  | unload m =>
    obtain ⟨v, hv, rfl⟩ := Option.map_eq_some_iff.mp hnext
    exact .inr (.inr ⟨m, v, rfl, hv, rfl⟩)

theorem hooks_apart (m m' : Module) (hne : m' ≠ m) :
    ∀ n ∈ numbers m.hooks, n ∉ numbers m'.hooks := by
  cases m <;> cases m' <;> first | exact absurd rfl hne | decide

/-- What the loaded modules have saved. -/
def Interceptors.refs (s : Interceptors) (m : Module) : Option (Nat → Handler) :=
  (s.loaded m).map Statics.ref

theorem hooks_nodup (m : Module) : (numbers m.hooks).Nodup := by
  cases m <;> decide

theorem safe_of_ne (hn : n ≠ nrCs3013Syscall1) : Safe Module.hooks n := by
  intro m hook hmem heq
  subst heq
  cases m with
  | part1 =>
    simp only [Module.hooks, List.mem_cons, List.not_mem_nil, or_false] at hmem
    obtain rfl | rfl | rfl | rfl := hmem
    · rfl
    · rfl
    · rfl
    · exact absurd rfl hn
  | kernsysinfo =>
    obtain rfl := List.mem_singleton.mp hmem
    rfl

theorem refs_update (m : Module) (v : Option Statics) (t : SysCallTable) :
    Interceptors.refs ⟨t, update s.loaded m v⟩ = update s.refs m (v.map Statics.ref) := by
  funext m'
  exact apply_update (fun _ => Option.map Statics.ref) s.loaded m v m'

/-- The modules lie on the first table, and a loaded one knows the table. -/
structure Sound (table : SysCallTable) (s : Interceptors) : Prop where
  mediated : Mediated .null Module.hooks table s.table s.refs
  known : ∀ m v, s.loaded m = some v → v.sysCallTable = true

theorem sound_start (table : SysCallTable) : Sound table ⟨table, fun _ => none⟩ :=
  ⟨mediated_start, fun _ _ hv => by cases hv⟩

theorem Sound.step (hs : Sound table s) (hstep : s.step e = some s') : Sound table s' := by
  have hnext : (interceptors table).step s e s' := hstep
  obtain ⟨m, rfl, hm, rfl⟩ | ⟨m, rfl, rfl⟩ | ⟨m, v, rfl, hv, rfl⟩ := step_cases hnext
  · constructor
    · rw [refs_update]
      apply hs.mediated.load _ (hooks_nodup m) (hooks_apart m)
      rw [Interceptors.refs, hm]
      rfl
    · refine (forall_update_iff s.loaded fun _ o => ∀ v, o = some v → v.sysCallTable = true).mpr
        ⟨fun v hv => ?_, fun m' _ => hs.known m'⟩
      rw [← Option.some_inj.mp hv]
  · exact hs
  · constructor
    · rw [refs_update, interceptorEnd, if_pos (hs.known m v hv)]
      apply hs.mediated.unload _ (hooks_apart m)
      rw [Interceptors.refs, hv]
      rfl
    · refine (forall_update_iff s.loaded fun _ o => ∀ v, o = some v → v.sysCallTable = true).mpr
        ⟨fun v hv => ?_, fun m' _ => hs.known m'⟩
      cases hv

/-- Every other entry that no loaded module replaces is as in the first table. -/
theorem Sound.entry (hs : Sound table s) (hn : n ≠ nrCs3013Syscall1)
    (hfree : ∀ m, s.loaded m ≠ none → n ∉ numbers m.hooks) : s.table n = table n := by
  apply (hs.mediated.outside n _).eq (safe_of_ne hn)
  intro m hm
  apply hfree
  intro hnone
  rw [Interceptors.refs, hnone] at hm
  exact hm rfl

/-- `part1` writes NULL back to the entry of the first added system call, which it does not save;
until then the entry is as in the first table. -/
structure Forgets (table : SysCallTable) (h : List Event) (s : Interceptors) : Prop where
  ref : ∀ v, s.loaded .part1 = some v → v.ref nrCs3013Syscall1 = .null
  entry : s.loaded .part1 = none → s.table nrCs3013Syscall1 =
    if .unload .part1 ∈ h then .null else table nrCs3013Syscall1

theorem saved_syscall1 (table : SysCallTable) :
    saved .null Module.part1.hooks table nrCs3013Syscall1 = .null :=
  saved_apply.trans (if_neg (by decide))

theorem mem_part1_syscall1 : nrCs3013Syscall1 ∈ numbers Module.part1.hooks := by decide

theorem notMem_kernsysinfo_syscall1 : nrCs3013Syscall1 ∉ numbers Module.kernsysinfo.hooks := by
  decide

theorem unload_mem_cons (he : e ≠ .unload .part1) :
    .unload .part1 ∈ e :: h ↔ .unload .part1 ∈ h := by
  rw [List.mem_cons, or_iff_right (Ne.symm he)]

theorem Forgets.step (hs : Forgets table h s) (hsound : Sound table s)
    (hstep : s.step e = some s') : Forgets table (e :: h) s' := by
  have hnext : (interceptors table).step s e s' := hstep
  obtain ⟨m, rfl, hm, rfl⟩ | ⟨m, rfl, rfl⟩ | ⟨m, v, rfl, hv, rfl⟩ := step_cases hnext
  · cases m with
    | part1 =>
      refine ⟨fun v hv => ?_, fun hnone => ?_⟩
      · obtain rfl := Option.some_inj.mp hv
        exact saved_syscall1 s.table
      · cases hnone
    | kernsysinfo =>
      refine ⟨hs.ref, fun hnone => ?_⟩
      simp only [unload_mem_cons (nofun : Event.load .kernsysinfo true ≠ .unload .part1),
        install_of_notMem notMem_kernsysinfo_syscall1]
      exact hs.entry hnone
  · refine ⟨hs.ref, fun hnone => ?_⟩
    simp only [unload_mem_cons (nofun : Event.load m false ≠ .unload .part1)]
    exact hs.entry hnone
  · rw [interceptorEnd, if_pos (hsound.known m v hv)]
    cases m with
    | part1 =>
      refine ⟨nofun, fun _ => ?_⟩
      rw [if_pos List.mem_cons_self]
      exact restore_apply.trans ((if_pos mem_part1_syscall1).trans (hs.ref v hv))
    | kernsysinfo =>
      refine ⟨hs.ref, fun hnone => ?_⟩
      simp only [unload_mem_cons (nofun : Event.unload .kernsysinfo ≠ .unload .part1),
        restore_apply, if_neg notMem_kernsysinfo_syscall1]
      exact hs.entry hnone

theorem run_forgets (hrun : (interceptors table).Run h s) :
    Sound table s ∧ Forgets table h s := by
  apply hrun.invariant (I := fun h s => Sound table s ∧ Forgets table h s)
  · intro s hinit
    subst hinit
    exact ⟨sound_start table, nofun, fun _ => rfl⟩
  · intro h s e s' hs _ hstep
    exact ⟨hs.1.step hstep, hs.2.step hs.1 hstep⟩

/-- In a run the entries are restored unless `part1` has been unloaded, is not loaded again, and the
table had a handler for the first of the two added system calls. -/
theorem run_restored (hrun : (interceptors table).Run h s) : Restored table s ↔
    table nrCs3013Syscall1 = .null ∨ s.loaded .part1 ≠ none ∨ .unload .part1 ∉ h := by
  obtain ⟨hsound, hforgets⟩ := run_forgets hrun
  constructor
  · intro hrestored
    by_contra! hlost
    obtain ⟨hhandler, hnone, hunload⟩ := hlost
    have hentry := hforgets.entry hnone
    rw [if_pos hunload] at hentry
    have hsame := hrestored nrCs3013Syscall1 fun m hm => by
      cases m with
      | part1 => exact absurd hnone hm
      | kernsysinfo => exact notMem_kernsysinfo_syscall1
    exact hhandler (hsame.symm.trans hentry)
  · intro hkept n hfree
    by_cases hn : n = nrCs3013Syscall1
    · subst hn
      have hnone : s.loaded .part1 = none :=
        Classical.not_not.mp fun hm => hfree .part1 hm mem_part1_syscall1
      rw [hforgets.entry hnone]
      obtain hnull | hm | hunload := hkept
      · rw [hnull, ite_self]
      · exact absurd hnone hm
      · exact if_neg hunload
    · exact hsound.entry hn hfree

end Steps

/-- The table after `part1` has been loaded and unloaded. -/
def unloaded (table : SysCallTable) : SysCallTable :=
  interceptorEnd .part1 ⟨true, saved .null Module.part1.hooks table⟩
    (install Module.part1.hooks table)

theorem unload_run (table : SysCallTable) : (interceptors table).Run
    [.unload .part1, .load .part1 true] ⟨unloaded table, fun _ => none⟩ := by
  refine ⟨_, rfl, .tail (.tail .refl trivial rfl) trivial ?_⟩
  refine congrArg some (congrArg (Interceptors.mk _) ?_)
  funext m
  cases m <;> rfl

/-- Every order of loads and unloads leaves the entries that no loaded module replaces as they were,
exactly if the table had no handler for the first of the two added system calls. In one run it is
enough that `part1` is still loaded, or has never been unloaded, and the other entries are restored
in any case. -/
theorem unloading_restores_iff (table : SysCallTable) :
    ((∀ h s, (interceptors table).Run h s → Restored table s) ↔
      table nrCs3013Syscall1 = .null) ∧
    ∀ h s, (interceptors table).Run h s →
      (Restored table s ↔ table nrCs3013Syscall1 = .null ∨ s.loaded .part1 ≠ none ∨
        .unload .part1 ∉ h) ∧
      ∀ n, n ≠ nrCs3013Syscall1 → (∀ m, s.loaded m ≠ none → n ∉ numbers m.hooks) →
        s.table n = table n := by
  refine ⟨⟨fun hall => ?_, fun hnull h s hrun => ?_⟩, fun h s hrun => ⟨run_restored hrun, ?_⟩⟩
  · have hrun := unload_run table
    obtain hnull | hm | hunload := (run_restored hrun).mp (hall _ _ hrun)
    · exact hnull
    · exact absurd rfl hm
    · exact absurd List.mem_cons_self hunload
  · exact (run_restored hrun).mpr (.inl hnull)
  · exact fun n hn hfree => (run_forgets hrun).1.entry hn hfree

/-- While `part1` is loaded every other entry is there, also after an unload of `kernsysinfo`. -/
theorem unloading_restores_loaded : ∃ h s, (interceptors Handler.other).Run h s ∧
    .unload .kernsysinfo ∈ h ∧ s.loaded .part1 ≠ none ∧ Restored Handler.other s := by
  let first : Interceptors := ⟨Handler.other, fun _ => none⟩
  obtain ⟨s, hplay, hloaded⟩ : ∃ s, System.playIf Interceptors.step (fun _ _ => True) first
      [.load .part1 true, .load .kernsysinfo true, .unload .kernsysinfo] = some s ∧
      s.loaded .part1 ≠ none := ⟨_, rfl, Option.some_ne_none _⟩
  have hrun : (interceptors Handler.other).Run _ s :=
    ⟨first, rfl, System.steps_of_playIf (fun _ _ _ h => h) hplay⟩
  have hkept := ((unloading_restores_iff Handler.other).2 _ s hrun).1
  exact ⟨_, s, hrun, by decide, hloaded, hkept.mpr (.inr (.inl hloaded))⟩

/-- With a handler for every call, one load and unload of `part1` leaves NULL behind. -/
theorem unloading_leaves_null : ∃ h s, (interceptors Handler.other).Run h s ∧
    (∀ m, s.loaded m = none) ∧ s.table nrCs3013Syscall1 = .null ∧
      ¬ Restored Handler.other s := by
  have hrun := unload_run Handler.other
  have hnull : unloaded Handler.other nrCs3013Syscall1 = .null := by
    rw [unloaded, interceptorEnd, if_pos rfl, restore_apply, if_pos mem_part1_syscall1]
    exact saved_syscall1 Handler.other
  refine ⟨_, _, hrun, fun _ => rfl, hnull, fun hrestored => ?_⟩
  have hsame := hrestored nrCs3013Syscall1 fun _ hm => absurd rfl hm
  cases hnull.symm.trans hsame

end Cs3013.Kernel
