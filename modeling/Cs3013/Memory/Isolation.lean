import Cs3013.Memory.SoundRuns

/-!
# Where a store writes and which bytes are touched

The two properties that hold as long as no line number of the swap file is taken for an address:
a store only changes the byte it is meant for, and no index leaves `mem`. Both are exact for the
command they speak about; the runs before it are those of orderly commands.
-/
namespace Cs3013.Memory

open Cs3013.Library.Faulting Cs3013.Library.Transition Machine

/-- At most one byte differs, and it is the byte for `vaddr` in a writeable page of `p` that is
present in a data frame of `p`. -/
structure Isolated (s u : Machine) (p : Fin 4) (vaddr : Fin 64) : Prop where
  single : ∀ a b, u.byte a ≠ s.byte a → u.byte b ≠ s.byte b → a = b
  own : ∀ a, u.byte a ≠ s.byte a → ∃ d : Fin 4, a = 16 * d.val + offset vaddr ∧
    s.pages d = (p.val : Int) ∧ s.ispagetable d = false ∧ (∀ q, ¬ s.TableAt q d) ∧
    (s.entry p (vpage vaddr)).val = 2 ∧ (s.entry p (vpage vaddr)).prot = 1 ∧
    (s.entry p (vpage vaddr)).pfn.toNat = 16 * d.val

/-- The commands after which the tables are right. -/
def Guarded (s : Machine) (c : Cmd) : Prop := Orderly s c ∧ ¬ Misplaces s c

instance (s : Machine) (c : Cmd) : Decidable (Guarded s c) :=
  inferInstanceAs (Decidable (_ ∧ _))

section Stores

variable {s u : Machine} {p d : Fin 4} {vaddr : Fin 64} {val : UInt8} {h : List Event} {c : Cmd}

theorem Isolated.same (hu : ∀ a, u.byte a = s.byte a) : Isolated s u p vaddr :=
  ⟨fun a _ ha => absurd (hu a) ha, fun a ha => absurd (hu a) ha⟩

/-- One byte written to the page. -/
theorem Isolated.write (hs : Sound s) (h2 : (s.entry p (vpage vaddr)).val = 2)
    (hprot : (s.entry p (vpage vaddr)).prot = 1)
    (hpfn : (s.entry p (vpage vaddr)).pfn.toNat = 16 * d.val)
    (hu : ∀ a, u.byte a = if a = 16 * d.val + offset vaddr then val else s.byte a) :
    Isolated s u p vaddr := by
  have hat : ∀ a, u.byte a ≠ s.byte a → a = 16 * d.val + offset vaddr := by
    intro a ha
    by_contra hne
    rw [hu, if_neg hne] at ha
    exact ha rfl
  obtain ⟨hpages, hflag⟩ := hs.coherent.entries.present_at h2 hpfn
  constructor
  · intro a b ha hb
    rw [hat a ha, hat b hb]
  · intro a ha
    exact ⟨d, hat a ha, hpages, hflag, hs.kept.owned.not_table hflag, h2, hprot, hpfn⟩

/-- A store with the page table in memory is isolated unless it hits a wrong byte. -/
theorem store_isolated_iff (hs : Sound s) (hin : (s.hardware p).inmem = .memory) :
    Isolated s (finalState ((exec (.store p vaddr val)).run s)) p vaddr ↔
      ¬ Misplaces s (.store p vaddr val) := by
  obtain ⟨t, ht⟩ := hs.kept.owned.resident p hin
  rw [exec_run]
  show Isolated s (finalState ((store p.val vaddr.val val).run s.reset)) p vaddr ↔ _
  rcases store_cases hs.reset ht vaddr val with
    ⟨hon, m, -, hrun⟩ | ⟨d, h2, hprot, hpfn, hrun⟩ | ⟨hon, hrun⟩
  · rw [hrun]
    constructor
    · intro _ hbad
      exact hon hbad.1
    · intro _
      exact .same fun _ => rfl
  · rw [hrun]
    constructor
    · intro _ hbad
      cases hbad.1.2.1.symm.trans h2
    · intro _
      have hoff := offset_lt vaddr
      exact .write hs h2 hprot hpfn fun a => byte_write s (by omega) val a
  · have h1 : (s.entry p (vpage vaddr)).val = 1 := hon.2.1
    split_ifs at hrun with ha
    · rw [hrun]
      have ha' : (s.entry p (vpage vaddr)).pfn.toNat + offset vaddr < 64 := ha
      have hbyte : ∀ m a, ((s.reset.write ((s.entry p (vpage vaddr)).pfn.toNat + offset vaddr)
          val).printed m).byte a =
          if a = (s.entry p (vpage vaddr)).pfn.toNat + offset vaddr then val else s.byte a :=
        fun _ a => byte_write s ha' val a
      constructor
      · intro hisolated hbad
        obtain ⟨d, -, -, -, -, h2, -⟩ := hisolated.own
          ((s.entry p (vpage vaddr)).pfn.toNat + offset vaddr) (by
            intro hsame
            exact hbad.2.2 (hsame.symm.trans ((hbyte _ _).trans (if_pos rfl))))
        cases h1.symm.trans h2
      · intro hplace
        apply Isolated.same
        intro a
        refine (hbyte _ a).trans ?_
        split_ifs with heq
        · by_contra hne
          exact hplace ⟨hon, ha, fun hsame => hne (by rw [heq]; exact hsame.symm)⟩
        · rfl
    · rw [hrun]
      constructor
      · intro _ hbad
        exact ha hbad.2.1
      · intro _
        exact .same fun _ => rfl

end Stores

/-! ## Whole runs -/

section Runs

variable {s : Machine} {h : List Event} {c : Cmd} {p : Fin 4}

/-- In a run of guarded commands a store to a process with its page table in memory changes nothing
but its own byte, exactly when it is guarded itself. -/
theorem store_isolated_unless_misplaced
    (hrun : memsim.RunIf (fun s e => Guarded s e.cmd) h s) (hin : (s.hardware p).inmem = .memory)
    (vaddr : Fin 64) (val : UInt8) :
    Isolated s (finalState ((exec (.store p vaddr val)).run s)) p vaddr ↔
      ¬ Misplaces s (.store p vaddr val) :=
  store_isolated_iff (run_sound (fun _ _ hg => hg) hrun) hin

theorem fourProcesses_present : ∃ h s, memsim.RunIf (fun s e => Guarded s e.cmd) h s ∧
    h.map Event.cmd = fourProcesses.reverse ∧ (s.TableAt 3 0 ∧
      ¬ Misplaces s (.store 3 2 9) ∧ s.byte 50 = 0 ∧
        (finalState ((exec (.store 3 2 9)).run s)).byte 50 = 9) :=
  exists_run Guarded [] (by decide +kernel)

theorem store_isolated_four : ∃ h s, h.map Event.cmd = fourProcesses.reverse ∧
    memsim.RunIf (fun s e => Guarded s e.cmd) h s ∧ (s.hardware 3).inmem = .memory ∧
    (finalState ((exec (.store 3 2 9)).run s)).byte 50 ≠ s.byte 50 ∧
    Isolated s (finalState ((exec (.store 3 2 9)).run s)) 3 2 := by
  obtain ⟨h, s, hrun, hcmds, htable, hplace, hbefore, hafter⟩ := fourProcesses_present
  refine ⟨h, s, hcmds, hrun, htable.inmem, ?_,
    (store_isolated_unless_misplaced hrun htable.inmem 2 9).mpr hplace⟩
  rw [hbefore, hafter]
  decide

/-- Four pages of one process: the second page is on line 0 of the file. -/
def fourPages : List Cmd := [.map 0 0 1, .map 0 16 1, .map 0 32 1, .map 0 48 1]

theorem fourPages_store : ∃ h s, memsim.RunIf (fun _ _ => True) h s ∧
    h.map Event.cmd = fourPages.reverse ∧ (s.TableAt 0 0 ∧ s.ispagetable 0 = true ∧
      s.byte 0 = 0 ∧ (finalState ((exec (.store 0 16 7)).run s)).byte 0 = 7) :=
  exists_run (fun _ _ => True) [] (by decide +kernel)

/-- The store to the page on disk writes into the page table. -/
theorem store_not_isolated : ∃ h s, memsim.Run h s ∧ h.map Event.cmd = fourPages.reverse ∧
    (s.hardware 0).inmem = .memory ∧
    ¬ Isolated s (finalState ((exec (.store 0 16 7)).run s)) 0 16 := by
  obtain ⟨h, s, hrun, hcmds, htable, hflag, hbefore, hafter⟩ := fourPages_store
  refine ⟨h, s, hrun, hcmds, htable.inmem, fun hisolated => ?_⟩
  obtain ⟨d, hd, -, hdata, -⟩ := hisolated.own 0 (by rw [hbefore, hafter]; decide)
  obtain rfl : d = 0 := by omega
  cases hdata.symm.trans hflag

/-- In a run of guarded commands an orderly command leaves `mem` in two cases only: a load of a
page that was never mapped, and a store at a line number. -/
theorem out_of_bounds_iff (hrun : memsim.RunIf (fun s e => Guarded s e.cmd) h s)
    (ho : Orderly s c) : (∃ i u, (exec c).run s = .error (.mem i) u) ↔
      LoadsUnmapped s c ∨ StoresOutside s c := by
  have hs := (run_sound (fun _ _ hg => hg) hrun).reset
  -- whatever only stops at the overflow stays in bounds
  have hends : ∀ {Q : Int → Machine → Prop}, Ends c.run s.reset Q →
      ¬ ∃ i u, (exec c).run s = .error (.mem i) u := by
    intro Q hends hex
    obtain ⟨i, u, hfault⟩ := hex
    unfold Ends wp at hends
    rw [← exec_run, hfault] at hends
    cases hends
  constructor
  · intro hfault
    by_contra hnot
    simp only [not_or] at hnot
    cases c with
    | map p vaddr val => exact hends (map_carried hs reset_callsOk ho.reset) hfault
    | load p vaddr val => exact hends (load_carried hs ho.reset hnot.1) hfault
    | store p vaddr val =>
      by_cases hin : (s.hardware p).inmem = .memory
      · obtain ⟨t, ht⟩ := hs.kept.owned.resident p hin
        obtain ⟨i, u, hfault⟩ := hfault
        rw [exec_run] at hfault
        rcases store_cases hs ht vaddr val with
          ⟨-, m, -, hrun⟩ | ⟨d, -, -, -, hrun⟩ | ⟨hon, hrun⟩
        · cases hrun.symm.trans hfault
        · cases hrun.symm.trans hfault
        · split_ifs at hrun with ha
          · cases hrun.symm.trans hfault
          · exact hnot.2 ⟨hon, Nat.le_of_not_lt ha⟩
      · exact hends (store_away hs ho.reset hin) hfault
  · intro hor
    obtain hload | hstore := hor
    · cases c with
      | load p vaddr val =>
        obtain ⟨t, ht⟩ := hs.kept.owned.resident p hload.1
        exact ⟨-1, s.reset, load_absent ht hload.2⟩
      | map p vaddr val => exact hload.elim
      | store p vaddr val => exact hload.elim
    · cases c with
      | store p vaddr val =>
        obtain ⟨⟨hin, h1, hprot⟩, hout⟩ := hstore
        obtain ⟨t, ht⟩ := hs.kept.owned.resident p hin
        have hrun := store_memory ht vaddr val
        have hne : ¬ (s.reset.entry p (vpage vaddr)).val = 0 := by
          show ¬ (s.entry p (vpage vaddr)).val = 0
          rw [h1]
          decide
        have hprot' : (s.reset.entry p (vpage vaddr)).prot = 1 := hprot
        have hout' : ¬ (s.reset.entry p (vpage vaddr)).pfn.toNat + offset vaddr < 64 :=
          Nat.not_lt_of_le hout
        rw [if_neg hne, if_pos hprot', if_neg hout'] at hrun
        exact ⟨_, _, hrun⟩
      | map p vaddr val => exact hstore.elim
      | load p vaddr val => exact hstore.elim

theorem fourProcesses_load : ∃ h s, memsim.RunIf (fun s e => Guarded s e.cmd) h s ∧
    h.map Event.cmd = fourProcesses.reverse ∧ (Orderly s (.load 1 5 0) ∧
      ¬ LoadsUnmapped s (.load 1 5 0) ∧ ¬ StoresOutside s (.load 1 5 0) ∧
        (s.entry 1 0).val = 1) :=
  exists_run Guarded [] (by decide +kernel)

/-- A load that swaps out one page and brings in another one. -/
theorem in_bounds_four : ∃ h s, h.map Event.cmd = fourProcesses.reverse ∧
    memsim.RunIf (fun s e => Guarded s e.cmd) h s ∧ Orderly s (.load 1 5 0) ∧
    (s.entry 1 0).val = 1 ∧ ¬ ∃ i u, (exec (.load 1 5 0)).run s = .error (.mem i) u := by
  obtain ⟨h, s, hrun, hcmds, ho, hload, hstore, hval⟩ := fourProcesses_load
  refine ⟨h, s, hcmds, hrun, ho, hval, fun hfault => ?_⟩
  rcases (out_of_bounds_iff hrun ho).mp hfault with hbad | hbad
  · exact hload hbad
  · exact hstore hbad

theorem firstMap_load : ∃ h s, memsim.RunIf (fun _ _ => True) h s ∧
    h.map Event.cmd = [Cmd.map 0 0 1].reverse ∧
      wp (exec (.load 0 16 0)) (fun _ _ => False) (fun e _ => e = .mem (-1)) s :=
  exists_run (fun _ _ => True) [] (by decide +kernel)

/-- The load of a page that was never mapped reads `mem[-1]`. -/
theorem load_out_of_bounds : ∃ h s u, memsim.Run h s ∧ h.map Event.cmd = [Cmd.map 0 0 1] ∧
    (exec (.load 0 16 0)).run s = .error (.mem (-1)) u := by
  obtain ⟨h, s, hrun, hcmds, hload⟩ := firstMap_load
  unfold wp at hload
  cases hexec : (exec (.load 0 16 0)).run s with
  | ok r u =>
    rw [hexec] at hload
    exact hload.elim
  | error e u =>
    rw [hexec] at hload
    obtain rfl : e = .mem (-1) := hload
    exact ⟨h, s, u, hrun, hcmds, hexec⟩

end Runs

end Cs3013.Memory
