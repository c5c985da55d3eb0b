import Cs3013.Memory.Supply

/-!
# The frames over whole runs

Each command keeps the stage of the frames, so that every run does. The supply of frames and
the search for the owner of a victim never fail; the four arrays agree for as long as no page
takes the frame of another process's table.
-/
namespace Cs3013.Memory

open Cs3013.Library.Faulting Cs3013.Library.Transition Machine

/-- The command takes a frame for a page: `map` unless the page is present, the others to bring
the page in from the file, `store` only together with its page table. -/
def Cmd.takesPage (s : Machine) : Cmd → Prop
  | .map pid vaddr _ => s.valpres pid vaddr ≠ 2
  | .store pid vaddr _ => (s.hardware pid).inmem = .file ∧ s.valpres pid vaddr = 1
  | .load pid vaddr _ => s.valpres pid vaddr = 1

instance (s : Machine) (c : Cmd) : Decidable (c.takesPage s) :=
  match c with
  | .map _ _ _ => inferInstanceAs (Decidable (_ ≠ _))
  | .store _ _ _ => inferInstanceAs (Decidable (_ ∧ _))
  | .load _ _ _ => inferInstanceAs (Decidable (_ = _))

section Commands

variable {s : Machine} {p t : Fin 4} {vaddr : Nat} {val : UInt8}

theorem map_outcome (hdisk : s.DiskOk) (hcalls : s.CallsOk) (hstage : s.Stage)
    (hv : vaddr < 64) : Yields (map p.val vaddr val) s fun _ u =>
      s.Outcome u.toFrames p (s.valpres p vaddr ≠ 2) := by
  apply (mapTable_yields hdisk hcalls hstage).bind
  intro _ u hu hdisk' hcalls'
  obtain ⟨hready, t, ht⟩ := hu.ready hstage
  apply (mapPage_yields hdisk' hcalls' hready ht hv).mono
  intro _ v hframes
  rw [hframes]
  cases hu with
  | there t' ht' hu =>
    subst hu
    split_ifs with hpresent
    · exact .same hstage (not_not_intro hpresent)
    · exact .page hstage ht hpresent
  | fetched hin hu =>
    have hfull := hstage.full hin
    have hval : u.valpres p vaddr = s.valpres p vaddr := hu.bytes _ (by omega)
    rw [hval, hu.frames]
    split_ifs with hpresent
    · exact .table hfull hin (not_not_intro hpresent)
    · exact .both hfull hin hpresent
  | first h hu hval =>
    have hsupply : (Frames.starting p 1).supply p = Frames.starting p 2 :=
      Frames.starting_supply p 1
    have hkept : (Frames.starting p 2).Kept := .starting p 2 (.inl rfl) rfl
    have hcount : (Frames.starting p 2).freeCount = 2 := Frames.starting_freeCount p 2
    rw [hval vaddr hv, if_neg (by decide), hu, h, hsupply]
    refine ⟨.inl hkept, ?_, fun _ _ => hkept, fun _ hbad => ?_⟩
    · rw [hcount]
      decide
    · cases hbad.2.1 0
  | created f i hin hf hi hu hval =>
    have hfull := hf.supply_full hi
    rw [hval vaddr hv, if_neg (by decide), hu]
    refine ⟨.inl (.full hfull), ?_, fun _ _ => .full hfull, fun hkept hbad => ?_⟩
    · rw [Frames.freeCount_eq_zero hfull.used]
      exact Nat.zero_le _
    · rw [Frames.withTable_eq (by rw [hin]; decide)] at hbad
      obtain ⟨j, hj⟩ := hkept.owned.exists_not_flagged (Frames.not_memory_of_unset hin)
      cases (hbad.2.1 j).symm.trans hj

/-- `command` brings in the page table, and the page when its entry says that it is on disk. -/
theorem fetch_outcome (hdisk : s.DiskOk) (hcalls : s.CallsOk) (hstage : s.Stage)
    (hin : (s.hardware p).inmem = .file) (hv : vaddr < 64) :
    Yields (fetch p.val vaddr) s fun _ u =>
      s.Outcome u.toFrames p (s.valpres p vaddr = 1) := by
  have hfull := hstage.full hin
  have hspace : ((s.freeCount : Nat) : Int) = 0 := by
    rw [Frames.freeCount_eq_zero hfull.used]
    rfl
  rw [fetch]
  refine .step get_run (.step (hardwareOf_ok p) ?_)
  rw [hspace, if_pos hin, if_pos (by decide), ← bind_assoc]
  refine (fetchTable_yields hdisk hcalls hfull hin).bind ?_
  intro _ u hpost hdisk' hcalls'
  obtain ⟨rfl, hu⟩ := hpost
  obtain ⟨hfull', -⟩ := hfull.fetch hin
  rw [← hu.frames] at hfull'
  have ht : u.TableAt p s.victim := by
    rw [hu.frames]
    exact Frames.giveTable_tableAt
  have hval : u.valpres p vaddr = s.valpres p vaddr := hu.bytes _ (by omega)
  refine .step (findpte_memory ht vaddr) (.step (peek_valpres ht hv) ?_)
  rw [hval]
  by_cases hpage : s.valpres p vaddr = 1
  · rw [if_pos hpage, if_pos (by decide), ← bind_assoc]
    refine (loadPage_supply hdisk' hcalls' hfull'.ready ht hv hfull'.used).bind
      fun _ v hframes hdisk'' hcalls'' => .of_run (pure_run _) ?_ hdisk'' hcalls''
    rw [hframes, hu.frames]
    exact .both hfull hin hpage
  · rw [if_neg hpage]
    refine .of_run (pure_run _) ?_ hdisk' hcalls'
    rw [hu.frames]
    exact .table hfull hin hpage

theorem command_outcome (access : Access) (hdisk : s.DiskOk) (hcalls : s.CallsOk)
    (hstage : s.Stage) (hin : (s.hardware p).inmem = .file) (hv : vaddr < 64) :
    Yields (command access p.val vaddr val) s fun _ u =>
      s.Outcome u.toFrames p (s.valpres p vaddr = 1) := by
  refine (fetch_outcome hdisk hcalls hstage hin hv).bind fun _ u hu hdisk' hcalls' => ?_
  refine (Yields.of_preserves ?_ hdisk' hcalls').mono fun _ v hv => by
    rw [control_toFrames hv]
    exact hu
  cases access with
  | s =>
    refine (findpte_preserves _ _).bind fun pte => (peek_preserves _).bind fun _ => .ite ?_ ?_
    · exact (convert_preserves _ _).bind fun _ => (poke_preserves _ _).bind fun _ =>
        say_preserves _
    · exact say_preserves _
  | l =>
    refine (convert_preserves _ _).bind fun _ => .ite ?_ (.pure _)
    exact (peek_preserves _).bind fun _ => say_preserves _

theorem store_outcome (hdisk : s.DiskOk) (hcalls : s.CallsOk) (hstage : s.Stage)
    (hv : vaddr < 64) : Yields (store p.val vaddr val) s fun _ u =>
      s.Outcome u.toFrames p ((s.hardware p).inmem = .file ∧ s.valpres p vaddr = 1) := by
  cases hin : (s.hardware p).inmem with
  | memory =>
    obtain ⟨t, ht⟩ := hstage.resident hin
    refine .step (findpte_memory ht vaddr) ?_
    rw [if_pos (by omega)]
    refine (Yields.of_preserves ?_ hdisk hcalls).mono fun _ u hu => ?_
    · refine (convert_preserves _ _).bind fun _ => .ite ?_ ?_
      · exact (say_preserves _).bind fun _ => .pure _
      · refine (peek_preserves _).bind fun _ => .ite ?_ ?_
        · exact (poke_preserves _ _).bind fun _ => (say_preserves _).bind fun _ => .pure _
        · exact (say_preserves _).bind fun _ => .pure _
    · rw [control_toFrames hu]
      exact .same hstage fun h => by cases h.1
  | file =>
    refine .step (findpte_file hin vaddr) ?_
    rw [if_neg (by decide), if_pos rfl]
    refine (command_outcome .s hdisk hcalls hstage hin hv).bind fun _ u hu hdisk' hcalls' =>
      .of_run (pure_run _) ?_ hdisk' hcalls'
    simpa using hu
  | unset =>
    refine .step (findpte_unset hin vaddr) ?_
    rw [if_neg (by decide), if_neg (by decide), if_pos rfl]
    refine .step (say_ok _) (.of_run (pure_run _) ?_ (hdisk.congr rfl rfl rfl) (hcalls.congr rfl))
    exact .same hstage fun h => by cases h.1

theorem load_outcome (hdisk : s.DiskOk) (hcalls : s.CallsOk) (hstage : s.Stage)
    (hv : vaddr < 64) : Yields (load p.val vaddr val) s fun _ u =>
      s.Outcome u.toFrames p (s.valpres p vaddr = 1) := by
  cases hin : (s.hardware p).inmem with
  | memory =>
    obtain ⟨t, ht⟩ := hstage.resident hin
    refine (load_yields hdisk hcalls hstage.ready ht hv).mono fun _ u hu => ?_
    rw [hu]
    split_ifs with hpage
    · exact .page hstage ht hpage
    · exact .same hstage hpage
  | file =>
    refine .step (findpte_file hin vaddr) ?_
    rw [if_neg (by decide), if_pos rfl]
    exact (command_outcome .l hdisk hcalls hstage hin hv).bind fun _ u hu hdisk' hcalls' =>
      .of_run (pure_run _) hu hdisk' hcalls'
  | unset =>
    refine .step (findpte_unset hin vaddr) ?_
    rw [if_neg (by decide), if_neg (by decide), if_pos rfl]
    refine .step (say_ok _) (.of_run (pure_run _) ?_ (hdisk.congr rfl rfl rfl) (hcalls.congr rfl))
    refine .same hstage fun h => ?_
    rw [valpres, tableByte_unset hin] at h
    cases h

/-- One command, whatever the page tables hold. -/
theorem exec_outcome (hdisk : s.DiskOk) (hstage : s.Stage) (c : Cmd) :
    Yields (exec c) s fun _ u => s.Outcome u.toFrames c.pid (c.takesPage s) := by
  have hdisk' : Machine.DiskOk { s with out := [], calls := [] } := hdisk.congr rfl rfl rfl
  have hcalls : Machine.CallsOk { s with out := [], calls := [] } := by
    intro call hcall
    cases hcall
  refine .step (modify_run _) ?_
  cases c with
  | map pid vaddr val => exact map_outcome hdisk' hcalls hstage vaddr.isLt
  | store pid vaddr val => exact store_outcome hdisk' hcalls hstage vaddr.isLt
  | load pid vaddr val => exact load_outcome hdisk' hcalls hstage vaddr.isLt

end Commands

/-! ## Runs -/

/-- The first maps of four processes, after which the page table of process 0 is in the file. -/
def fourProcesses : List Cmd := [.map 0 0 1, .map 1 0 1, .map 2 0 1, .map 3 0 1]

/-- In this state a map of a new page calls `removePage` twice and relies on `findfree` twice. -/
theorem fourProcesses_calls : ∃ h s, memsim.RunIf (fun _ _ => True) h s ∧
    h.map Event.cmd = fourProcesses.reverse ∧
    (finalState ((exec (.map 0 16 1)).run s)).calls.length = 4 :=
  exists_run (fun _ _ => True) [] (by decide +kernel)

section Runs

variable {s s' : Machine} {h : List Event} {e : Event}

theorem step_outcome (hdisk : s.DiskOk) (hstage : s.Stage) (hstep : memsim.step s e s') :
    s.Outcome s'.toFrames e.cmd.pid (e.cmd.takesPage s) ∧ s'.DiskOk :=
  have hyields := wp_ok (exec_outcome hdisk hstage e.cmd) hstep.1
  ⟨hyields.1, hyields.2.1⟩

theorem startup_diskOk (stack : List Page) : (startup stack).DiskOk :=
  ⟨⟨[], rfl, rfl, show 0 < 2 ^ 31 by decide⟩, fun p hp => by cases hp⟩

theorem startup_kept (stack : List Page) : (startup stack).Kept := .fresh rfl

/-- Every run keeps the swap file and a stage of the frames. -/
theorem run_stage {ok : Machine → Event → Prop} (hrun : memsim.RunIf ok h s) :
    s.DiskOk ∧ s.Stage := by
  refine hrun.stateInvariant (I := fun s => s.DiskOk ∧ s.Stage) ?_ ?_
  · intro _ hinit
    obtain ⟨stack, rfl⟩ := hinit
    exact ⟨startup_diskOk stack, .inl (startup_kept stack)⟩
  · intro t l u hinv _ hstep
    obtain ⟨hdisk, hstage⟩ := hinv
    obtain ⟨hout, hdisk'⟩ := step_outcome hdisk hstage hstep
    exact ⟨hdisk', hout.stage⟩

theorem exec_callsOk (hrun : memsim.Run h s) (c : Cmd) :
    (finalState ((exec c).run s)).CallsOk :=
  wp_finalState (wp_mono (exec_outcome (run_stage hrun).1 (run_stage hrun).2 c)
    (fun _ _ hu => hu.2.2) fun _ _ hu => hu.2)

/-- The loops of `freespace` end within their bound. -/
theorem exec_ne_loop (hrun : memsim.Run h s) (c : Cmd) (u : Machine) :
    (exec c).run s ≠ .error .loop u := by
  intro hloop
  have hyields := exec_outcome (run_stage hrun).1 (run_stage hrun).2 c
  unfold Yields wp at hyields
  rw [hloop] at hyields
  exact hyields.1 rfl

/-- Between commands the free frames are those without an owner and every owner has its page
table in memory; during a command, also one that faults, `removePage` is only called for such
an owner, so that it finds the page table in a frame. -/
theorem eviction_finds_table (hrun : memsim.Run h s) :
    (∀ i, s.freelist i = true ↔ s.pages i = -1) ∧
    (∀ i, 0 ≤ s.pages i → ∃ p : Fin 4, s.pages i = p.val ∧ (s.hardware p).inmem = .memory) ∧
    ∀ (c : Cmd) (pid paddr : Int) (hardware : Fin 4 → Hp),
      .removePage pid paddr hardware ∈ (finalState ((exec c).run s)).calls →
      ∃ p t : Fin 4, pid = p.val ∧ (hardware p).inmem = .memory ∧
        ∀ u : Machine, u.hardware = hardware → (findpte pid 0).run u = .ok (16 * t.val) u := by
  obtain ⟨-, hstage⟩ := run_stage hrun
  refine ⟨?_, ?_, ?_⟩
  · rcases hstage with hkept | hover
    · exact hkept.owned.free
    · intro i
      obtain ⟨p, hp⟩ := hover.owner i
      rw [hover.used i, hp]
      simp [Frames.pages_ne_none p]
  · intro i hi
    rcases hstage with hkept | hover
    · obtain ⟨p, t, hp, ht⟩ := hkept.owned.owner i (by omega)
      exact ⟨p, hp, ht.inmem⟩
    · obtain ⟨p, hp⟩ := hover.owner i
      exact ⟨p, hp, hover.inmem p⟩
  · intro c pid paddr hardware hcall
    obtain ⟨p, t, rfl, ht⟩ := exec_callsOk hrun c _ hcall
    refine ⟨p, t, rfl, by rw [ht], fun u hu => ?_⟩
    subst hu
    exact findpte_zero ht

theorem eviction_finds_table_four : ∃ h s, h.map Event.cmd = fourProcesses.reverse ∧
    memsim.Run h s ∧ (finalState ((exec (.map 0 16 1)).run s)).calls.length = 4 ∧
    ∀ i, 0 ≤ s.pages i → ∃ p : Fin 4, s.pages i = p.val ∧ (s.hardware p).inmem = .memory := by
  obtain ⟨h, s, hrun, hcmds, hcalls⟩ := fourProcesses_calls
  exact ⟨h, s, hcmds, hrun, hcalls, (eviction_finds_table hrun).2.1⟩

/-- Where the result of `findfree` is used at once, it is a frame address, and no command ends
with more free frames than it started with. -/
theorem frame_supply (hrun : memsim.Run h s) :
    (∀ c result, .findfree result ∈ (finalState ((exec c).run s)).calls →
      result ∈ ([0, 16, 32, 48] : List Int)) ∧
    ∀ e s', memsim.step s e s' → s'.freeCount ≤ s.freeCount := by
  constructor
  · intro c result hcall
    obtain ⟨i, rfl⟩ := exec_callsOk hrun c _ hcall
    have hall : ∀ i : Fin 4, 16 * (i.val : Int) ∈ ([0, 16, 32, 48] : List Int) := by decide
    exact hall i
  · intro e s' hstep
    obtain ⟨hdisk, hstage⟩ := run_stage hrun
    exact (step_outcome hdisk hstage hstep).1.freeCount

theorem frame_supply_four : ∃ h s, h.map Event.cmd = fourProcesses.reverse ∧
    memsim.Run h s ∧ (finalState ((exec (.map 0 16 1)).run s)).calls.length = 4 ∧
    ∀ e s', memsim.step s e s' → s'.freeCount ≤ s.freeCount := by
  obtain ⟨h, s, hrun, hcmds, hcalls⟩ := fourProcesses_calls
  exact ⟨h, s, hcmds, hrun, hcalls, (frame_supply hrun).2⟩

/-- The command takes a frame for a page when, with its page table in memory, all four frames hold
page tables and the next one in turn is not its own. -/
def Robs (s : Machine) (c : Cmd) : Prop :=
  c.takesPage s ∧ (s.toFrames.withTable c.pid).Crowded c.pid

instance (s : Machine) (c : Cmd) : Decidable (Robs s c) :=
  inferInstanceAs (Decidable (_ ∧ _))

/-- The four arrays agree for as long as no command robs a page table of its frame, and a command
that does so and finishes breaks the agreement. -/
theorem ownership_unless_robbed (hrun : memsim.RunIf (fun s e => ¬ Robs s e.cmd) h s) :
    s.Ownership ∧ ∀ e s', memsim.step s e s' → Robs s e.cmd → ¬ s'.Ownership := by
  have hinv : s.DiskOk ∧ s.Kept := by
    refine hrun.stateInvariant (I := fun s => s.DiskOk ∧ s.Kept) ?_ ?_
    · intro _ hinit
      obtain ⟨stack, rfl⟩ := hinit
      exact ⟨startup_diskOk stack, startup_kept stack⟩
    · intro t l u hinv hgood hstep
      obtain ⟨hdisk, hkept⟩ := hinv
      obtain ⟨hout, hdisk'⟩ := step_outcome hdisk (.inl hkept) hstep
      exact ⟨hdisk', hout.kept hkept hgood⟩
  obtain ⟨hdisk, hkept⟩ := hinv
  refine ⟨hkept.owned.ownership, fun e s' hstep hbad => ?_⟩
  exact (step_outcome hdisk (.inl hkept) hstep).1.broken hkept hbad

end Runs

theorem fourProcesses_store : ∃ h s, memsim.RunIf (fun s e => ¬ Robs s e.cmd) h s ∧
    h.map Event.cmd = (fourProcesses ++ [Cmd.store 0 16 7]).reverse ∧ s.TableAt 0 3 :=
  exists_run (fun s c => ¬ Robs s c) [] (by decide +kernel)

/-- A store to an unmapped page brings the page table back and takes no frame for a page. -/
theorem ownership_unless_robbed_store : ∃ h s,
    h.map Event.cmd = (fourProcesses ++ [Cmd.store 0 16 7]).reverse ∧
    memsim.RunIf (fun s e => ¬ Robs s e.cmd) h s ∧ s.TableAt 0 3 ∧ s.Ownership := by
  obtain ⟨h, s, hrun, hcmds, htable⟩ := fourProcesses_store
  exact ⟨h, s, hcmds, hrun, htable, (ownership_unless_robbed hrun).1⟩

theorem fourProcesses_map : ∃ h s, memsim.RunIf (fun _ _ => True) h s ∧
    h.map Event.cmd = (fourProcesses ++ [Cmd.map 0 16 1]).reverse ∧
    (s.ispagetable 1 = true ∧ s.TableAt 2 1 ∧ s.pages 1 = 0) :=
  exists_run (fun _ _ => True) [] (by decide +kernel)

/-- A map of a new page robs process 2 of the frame of its page table. -/
theorem ownership_broken_by_map : ∃ h s, memsim.Run h s ∧
    h.map Event.cmd = (fourProcesses ++ [Cmd.map 0 16 1]).reverse ∧ ¬ s.Ownership := by
  obtain ⟨h, s, hrun, hcmds, hflag, htable, hpages⟩ := fourProcesses_map
  refine ⟨h, s, hrun, hcmds, fun hown => ?_⟩
  have howner := hown.owner 1 2 hflag htable
  rw [hpages] at howner
  cases howner

end Cs3013.Memory
