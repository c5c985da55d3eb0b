import Cs3013.Memory.Isolation

/-!
# The memory that the processes see

To the processes the simulation is meant to be one byte for each process and virtual address,
which only a store changes. The contents of the pages, wherever they lie, are that memory in
every run of commands that neither store at a line number, map a page on disk again, nor cut off
a line number.
-/
namespace Cs3013.Memory

open Cs3013.Library.Faulting Cs3013.Library.Transition Machine

/-- The abstract memory: a byte for each process and virtual address. -/
abbrev Contents := Fin 4 → Fin 64 → UInt8

def Message.isStored : Message → Bool
  | .stored _ _ => true
  | _ => false

/-- A store that reported "Stored" sets its byte, everything else leaves the memory alone. -/
def Event.apply (e : Event) (m : Contents) : Contents :=
  match e.cmd with
  | .store pid vaddr val =>
    if e.out.any Message.isStored then
      fun q w => if q = pid ∧ w = vaddr then val else m q w
    else m
  | _ => m

/-- The value of the last store to each byte, 0 before the first one. -/
def lastStored : List Event → Contents
  | [] => fun _ _ => 0
  | e :: h => e.apply (lastStored h)

/-- The byte at `vaddr` of process `p`, in a frame or in the file. -/
def Machine.contents (s : Machine) : Contents :=
  fun p vaddr => s.pageByte p (vpage vaddr) (offset vaddr)

/-- A map of a page that is on disk. -/
def Remaps (s : Machine) : Cmd → Prop
  | .map pid vaddr _ => (s.entry pid (vpage vaddr)).val = 1
  | _ => False

/-- The commands that keep the contents of all pages. -/
def Keeps (s : Machine) (c : Cmd) : Prop :=
  Orderly s c ∧ ¬ StoresOnDisk s c ∧ ¬ Remaps s c ∧ Fits s.linecount (c.victims s)

instance (s : Machine) (c : Cmd) : Decidable (Remaps s c) :=
  match c with
  | .map _ _ _ => inferInstanceAs (Decidable (_ = _))
  | .store _ _ _ | .load _ _ _ => inferInstanceAs (Decidable False)

instance (s : Machine) (c : Cmd) : Decidable (Keeps s c) :=
  inferInstanceAs (Decidable (_ ∧ _))

section Commands

variable {s u : Machine} {p : Fin 4} {vaddr : Fin 64} {val b : UInt8} {c : Cmd} {r : Int}
  {m : Contents}

theorem Keeps.guarded (hk : Keeps s c) : Guarded s c := by
  refine ⟨hk.1, fun hbad => ?_⟩
  cases c with
  | store p vaddr val => exact hk.2.1 hbad.1
  | map p vaddr val => exact hbad
  | load p vaddr val => exact hbad

theorem contents_congr
    (h : ∀ p k o, o < 16 → u.pageByte p k o = s.pageByte p k o) : u.contents = s.contents := by
  funext p vaddr
  exact h p _ _ (offset_lt vaddr)

theorem not_any_of_quiet (hquiet : Quiet s.reset u) : ¬ u.out.any Message.isStored = true := by
  simp only [List.any_eq_true, not_exists, not_and]
  intro m hm hstored
  have haccess : m.Access := by
    cases m <;> trivial
  cases hquiet m haccess hm

/-- A store that reported nothing has no effect. -/
theorem apply_quiet (hquiet : Quiet s.reset u) :
    Event.apply ⟨.store p vaddr val, r, u.out⟩ m = m :=
  if_neg (not_any_of_quiet hquiet)

/-- A load that can number its lines leaves the abstract memory alone. -/
theorem load_contents (hs : Sound s) (ho : Orderly s (.load p vaddr val))
    (hfits : Fits s.linecount (Cmd.victims s (.load p vaddr val))) :
    wp (load p.val vaddr.val val) (fun _ u => u.contents = s.contents) (fun _ _ => True) s := by
  apply wp_forget (load_reported hs ho)
  intro _ w hpost
  obtain ⟨u, hu, rfl | rfl⟩ := hpost
  · exact contents_congr (hu.contents hfits)
  · exact contents_congr (hu.contents hfits)

/-- What a command does to the abstract memory is what its output says. -/
theorem exec_contents (hs : Sound s) (hk : Keeps s c) :
    wp (exec c) (fun r u => u.contents = Event.apply ⟨c, r, u.out⟩ s.contents)
      (fun _ _ => True) s := by
  obtain ⟨ho, hdisk, hremap, hfits⟩ := hk
  apply wp_congr (exec_run c)
  cases c with
  | map p vaddr val =>
    apply wp_forget (map_carried hs.reset reset_callsOk ho.reset)
    intro _ u hu
    exact contents_congr (hu.contents ⟨hfits, fun h1 => absurd h1 hremap⟩)
  | load p vaddr val => exact load_contents hs.reset ho.reset hfits
  | store p vaddr val =>
    by_cases hin : (s.hardware p).inmem = .memory
    · obtain ⟨t, ht⟩ := hs.kept.owned.resident p hin
      rcases store_cases hs.reset ht vaddr val with
        ⟨-, m, hm, hrun⟩ | ⟨d, h2, hprot, hpfn, hrun⟩ | ⟨hon, -⟩
      · apply (wp_of_ok hrun).mpr
        have hquiet : Quiet s.reset (s.reset.printed m) :=
          .of_out (l := [m]) rfl (by simpa using hm)
        rw [apply_quiet hquiet]
        rfl
      · apply (wp_of_ok hrun).mpr
        have hwrite := (write_present hs.kept.owned hs.coherent h2 hpfn (offset_lt vaddr) val).2
        funext q w
        show (s.write (16 * d.val + offset vaddr) val).pageByte q (vpage w) (offset w) =
          if q = p ∧ w = vaddr then val else s.contents q w
        rw [hwrite q _ _ (offset_lt w)]
        apply if_congr _ rfl rfl
        constructor
        · intro hall
          exact ⟨hall.1, vaddr_ext hall.2.1 hall.2.2⟩
        · intro hall
          rw [hall.2]
          exact ⟨hall.1, rfl, rfl⟩
      · exact absurd hon hdisk
    · apply wp_forget (store_away hs.reset ho.reset hin)
      intro r u hu
      rw [apply_quiet hu.quiet]
      exact contents_congr (hu.contents hfits)

/-- A value that a load reports is a byte of the abstract memory. -/
theorem exec_load_value (hs : Sound s) (ho : Orderly s (.load p vaddr val))
    (hfits : Fits s.linecount (Cmd.victims s (.load p vaddr val))) :
    wp (exec (.load p vaddr val))
      (fun _ u => .value vaddr.val b ∈ u.out → b = s.contents p vaddr) (fun _ _ => True) s := by
  apply wp_congr (exec_run _)
  apply wp_forget (load_reported hs.reset ho.reset)
  intro _ w hpost hvalue
  obtain ⟨u, hu, hw⟩ := hpost
  have hnone : Message.value vaddr.val b ∉ u.out := by
    intro hin
    cases hu.quiet (.value vaddr.val b) trivial hin
  rcases hw with rfl | rfl
  · exact absurd hvalue hnone
  · rw [printed_out, List.mem_append, List.mem_singleton] at hvalue
    have heq := hvalue.resolve_left hnone
    injection heq with _ hb
    rw [hb]
    exact hu.contents hfits p _ _ (offset_lt vaddr)

end Commands

/-! ## Runs -/

section Runs

variable {s s' : Machine} {h : List Event} {e : Event} {p : Fin 4} {vaddr : Fin 64} {val b : UInt8}

/-- The simulation refines the abstract memory. -/
theorem run_contents (hrun : memsim.RunIf (fun s e => Keeps s e.cmd) h s) :
    Sound s ∧ s.contents = lastStored h := by
  apply hrun.invariant (I := fun h s => Sound s ∧ s.contents = lastStored h)
  · intro _ hinit
    obtain ⟨stack, rfl⟩ := hinit
    refine ⟨⟨startup_kept stack, startup_diskOk stack, startup_coherent stack⟩, ?_⟩
    funext p vaddr
    exact pageByte_absent (entry_unset rfl _) _
  · intro h t e u hinv hk hstep
    obtain ⟨hs, hcontents⟩ := hinv
    obtain ⟨hexec, hout⟩ := hstep
    refine ⟨step_sound hs hk.guarded.1 hk.guarded.2 ⟨hexec, hout⟩, ?_⟩
    have hstep := wp_ok (exec_contents hs hk) hexec
    rw [lastStored, ← hcontents, hstep, ← hout]

/-- Whatever happens in between, a load reports what the last store to the address stored. -/
theorem load_reports_last_stored (hrun : memsim.RunIf (fun s e => Keeps s e.cmd) h s)
    (hk : Keeps s e.cmd) (hstep : memsim.step s e s') (hcmd : e.cmd = .load p vaddr val)
    (hvalue : .value vaddr.val b ∈ e.out) : b = lastStored h p vaddr := by
  obtain ⟨hs, hcontents⟩ := run_contents hrun
  obtain ⟨hexec, hout⟩ := hstep
  rw [hcmd] at hk hexec
  rw [hout] at hvalue
  rw [← hcontents]
  exact wp_ok (exec_load_value hs hk.1 hk.2.2.2) hexec hvalue

end Runs

theorem away_and_back : ∃ h s, memsim.RunIf (fun s e => Keeps s e.cmd) h s ∧
    h.map Event.cmd =
      [Cmd.map 0 0 1, .store 0 3 7, .map 1 0 1, .map 2 0 1].reverse ∧
    (Keeps s (.load 0 3 0) ∧ (s.entry 0 0).val = 1 ∧
      wp (exec (.load 0 3 0)) (fun _ u => .value 3 7 ∈ u.out) (fun _ _ => False) s) :=
  exists_run Keeps [] (by decide +kernel)

/-- A page with a stored byte goes to the file for another process, and the load brings it back. -/
theorem load_reports_last_stored_back : ∃ h s e s',
    h.map Event.cmd = [Cmd.map 0 0 1, .store 0 3 7, .map 1 0 1, .map 2 0 1].reverse ∧
    memsim.RunIf (fun s e => Keeps s e.cmd) h s ∧ (s.entry 0 0).val = 1 ∧
    memsim.step s e s' ∧ e.cmd = .load 0 3 0 ∧ .value 3 7 ∈ e.out ∧ 7 = lastStored h 0 3 := by
  obtain ⟨h, s, hrun, hcmds, hk, hval, hload⟩ := away_and_back
  obtain ⟨r, u, hexec, hvalue⟩ := ok_of_wp hload
  have hstep : memsim.step s ⟨.load 0 3 0, r, u.out⟩ u := ⟨hexec, rfl⟩
  exact ⟨h, s, _, u, hcmds, hrun, hval, hstep, rfl, hvalue,
    load_reports_last_stored hrun hk hstep rfl hvalue⟩

theorem fourPages_load : ∃ h s, memsim.RunIf (fun _ _ => True) h s ∧
    h.map Event.cmd = (fourPages ++ [Cmd.store 0 16 7]).reverse ∧ (lastStored h 0 16 = 7 ∧
      wp (exec (.load 0 16 0)) (fun _ u => .value 16 0 ∈ u.out) (fun _ _ => False) s) :=
  exists_run (fun _ _ => True) [] (by decide +kernel)

/-- The value stored at a line number is lost. -/
theorem load_reports_other : ∃ h s e s', memsim.Run h s ∧
    h.map Event.cmd = (fourPages ++ [Cmd.store 0 16 7]).reverse ∧
    memsim.step s e s' ∧ e.cmd = .load 0 16 0 ∧ .value 16 0 ∈ e.out ∧
    (0 : UInt8) ≠ lastStored h 0 16 := by
  obtain ⟨h, s, hrun, hcmds, hlast, hload⟩ := fourPages_load
  obtain ⟨r, u, hexec, hvalue⟩ := ok_of_wp hload
  refine ⟨h, s, ⟨.load 0 16 0, r, u.out⟩, u, hrun, hcmds, ⟨hexec, rfl⟩, rfl, hvalue, ?_⟩
  rw [hlast]
  decide

end Cs3013.Memory
