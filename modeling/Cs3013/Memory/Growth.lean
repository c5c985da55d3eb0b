import Cs3013.Library.Budget
import Cs3013.Memory.SoundRuns

/-!
# How fast the swap file grows

Lines are only ever added to the file, and linecount is an `int` whose value becomes a byte of a
page table. A command calls `pageToFile` twice at most, whatever the page tables hold: the loops of
`freespace` count what they have swapped out, and a new page table leaves a frame free behind it.
-/
namespace Cs3013.Memory

open Cs3013.Library.CText Cs3013.Library.Faulting Cs3013.Library.Transition Machine

/-- The overflow of linecount, at no other place than its last value. -/
def Stops (e : Fault) (s : Machine) : Prop := e = .overflow → 2 ^ 31 ≤ s.linecount + 1

/-- The program adds `k` lines to the file at most. -/
abbrev Lines {α : Type} (k : Nat) (m : M α) : Prop := Spends Machine.linecount Stops k m

/-! ## Assignments -/

section Assignments

variable (pid address : Int)

theorem lines_peek (i : Int) : Lines 0 (peek i) := by
  intro s
  unfold wp EStateM.run peek
  split_ifs
  · exact le_rfl
  · exact ⟨le_rfl, nofun⟩

theorem lines_poke (i : Int) (v : UInt8) : Lines 0 (poke i v) := by
  intro s
  unfold wp EStateM.run poke
  split_ifs
  · exact le_rfl
  · exact ⟨le_rfl, nofun⟩

theorem lines_frameIndex : Lines 0 (frameIndex address) := by
  intro s
  unfold wp EStateM.run frameIndex
  split_ifs
  · exact le_rfl
  · exact ⟨le_rfl, nofun⟩

theorem lines_hardwareIndex : Lines 0 (hardwareIndex pid) := by
  intro s
  unfold wp EStateM.run hardwareIndex
  split_ifs
  · exact le_rfl
  · exact ⟨le_rfl, nofun⟩

theorem lines_say (m : Message) : Lines 0 (say m) := .modify fun _ => rfl

theorem lines_note (c : Call) : Lines 0 (note c) := .modify fun _ => rfl

theorem lines_robin : Lines 0 robin := .modify fun _ => rfl

theorem lines_uninitialised : Lines 0 uninitialised := fun _ => le_rfl

theorem lines_hardwareOf : Lines 0 (hardwareOf pid) :=
  (lines_hardwareIndex pid).free fun _ => Spends.get.free fun _ => .pure _

theorem lines_setHardware (hp : Hp) : Lines 0 (setHardware pid hp) :=
  (lines_hardwareIndex pid).free fun _ => .modify fun _ => rfl

theorem lines_setPages : Lines 0 (setPages address pid) :=
  (lines_frameIndex address).free fun _ => .modify fun _ => rfl

theorem lines_setFreelist (free : Bool) : Lines 0 (setFreelist address free) :=
  (lines_frameIndex address).free fun _ => .modify fun _ => rfl

theorem lines_setIspagetable (table : Bool) : Lines 0 (setIspagetable address table) :=
  (lines_frameIndex address).free fun _ => .modify fun _ => rfl

theorem lines_findpte (vaddr : Nat) : Lines 0 (findpte pid vaddr) := by
  refine (lines_hardwareOf pid).free fun hp => ?_
  split <;> exact .pure _

theorem lines_convert (vaddr : Nat) : Lines 0 (convert vaddr pid) := by
  refine (lines_hardwareOf pid).free fun hp => .ite ?_ (.pure _)
  exact (lines_peek _).free fun _ => .ite (.pure _) ((lines_peek _).free fun _ => .pure _)

theorem lines_findfree : Lines 0 findfree := by
  refine Spends.get.free fun s => ?_
  split
  · exact (lines_setFreelist _ _).free fun _ => .pure _
  · exact .pure _

/-- Without its bound the search stops only at the end of the file, or at a line without a token. -/
theorem findLine_error {linenum : Int} {fuel : Nat} {text : List Char} {e : Fault}
    (h : findLine linenum fuel text = .error e) : e = .loop ∨ e = .token ∨ e = .endOfFile := by
  induction fuel generalizing text with
  | zero => exact .inl (Except.error.inj h).symm
  | succ fuel ih =>
    cases hline : fgets 128 text with
    | none =>
      simp only [findLine, hline] at h
      exact .inr (.inr (Except.error.inj h).symm)
    | some found =>
      cases htoken : strtok ' ' found.1 with
      | nil =>
        simp only [findLine, hline, htoken] at h
        exact .inr (.inl (Except.error.inj h).symm)
      | cons number data =>
        simp only [findLine, hline, htoken] at h
        split_ifs at h
        exact ih h

/-- The search of the file never adds to it. -/
theorem lines_pageFromFile (buffer : Page) (linenum : Int) :
    Lines 0 (pageFromFile buffer linenum) := by
  refine Spends.get.free fun s => .ite ((lines_say _).free fun _ => .pure _) ?_
  split
  · rename_i e herror
    refine .throw fun _ he => ?_
    subst he
    rcases findLine_error herror with h | h | h <;> cases h
  · exact .pure _

theorem lines_clear (base : Int) :
    Lines 0 (forM (List.range 16) fun (i : Nat) => poke (base + i) 0 : M PUnit) :=
  .forM _ fun _ _ => lines_poke _ _

theorem lines_searchTable (pte paddr : Int) : Lines 0 (searchTable pte paddr) :=
  .foldlM _ (fun _ _ _ => (lines_peek _).free fun _ =>
    .ite ((lines_peek _).free fun _ => .pure _) (.pure _)) 0

/-- A call of `pageToFile` adds one line, or linecount is at its last value. -/
theorem lines_appendPage (base : Int) : Lines 1 (appendPage base) := by
  have hnext : Lines 1 nextLine := by
    intro s
    unfold wp EStateM.run nextLine
    split_ifs with hbound
    · exact le_rfl
    · exact ⟨Nat.le_succ _, fun _ => Nat.le_of_not_lt hbound⟩
  apply hnext.last
  intro line
  apply (Spends.mapM _ fun _ _ => lines_peek _).free
  exact fun _ => Spends.free (.modify fun _ => rfl) fun _ => .pure _

end Assignments

/-! ## The moves -/

section Moves

variable (pid : Int)

theorem lines_loadPageTable : Lines 0 (loadPageTable pid) := by
  refine (lines_hardwareOf pid).free fun hp => lines_findfree.free fun free => ?_
  refine (lines_note _).free fun _ => lines_uninitialised.free fun temp => ?_
  refine (lines_pageFromFile temp hp.address).free fun result => ?_
  refine Spends.free (.forM _ fun _ _ => lines_poke _ _) fun _ => ?_
  refine (lines_setPages pid free).free fun _ => (lines_setHardware pid _).free fun _ => ?_
  exact (lines_setIspagetable free true).free fun _ => (lines_say _).free fun _ => .pure _

theorem lines_loadPage (vaddr : Nat) : Lines 0 (loadPage pid vaddr) := by
  refine (lines_findpte pid vaddr).free fun pte => (lines_peek _).free fun line => ?_
  refine lines_findfree.free fun free => (lines_note _).free fun _ => ?_
  refine lines_uninitialised.free fun temp => ?_
  refine (lines_pageFromFile temp line.toNat).free fun result => ?_
  refine Spends.free (.forM _ fun _ _ => lines_poke _ _) fun _ => ?_
  refine (lines_setPages pid free).free fun _ => ?_
  refine (lines_findpte pid vaddr).free fun pte => (lines_poke _ _).free fun _ => ?_
  refine (lines_findpte pid vaddr).free fun pte => (lines_poke _ _).free fun _ => ?_
  exact (lines_say _).free fun _ => .pure _

theorem lines_removePageTable : Lines 1 (removePageTable pid) := by
  refine (lines_findpte pid 0).free fun pt => (lines_appendPage pt).last fun line => ?_
  refine (lines_setHardware pid _).free fun _ => (lines_setFreelist pt true).free fun _ => ?_
  refine (lines_setIspagetable pt false).free fun _ => (lines_clear pt).free fun _ => ?_
  exact (lines_setPages (-1) pt).free fun _ => lines_say _

theorem lines_removePage (paddr : Int) : Lines 1 (removePage pid paddr) := by
  refine (lines_findpte pid 0).free fun pte => (lines_searchTable pte paddr).free fun vp => ?_
  refine (lines_appendPage paddr).last fun fadr => (lines_poke _ _).free fun _ => ?_
  refine (lines_poke _ _).free fun _ => (lines_clear paddr).free fun _ => ?_
  exact (lines_setFreelist paddr true).free fun _ => lines_setPages (-1) paddr

theorem lines_swapOutFrame : Lines 1 swapOutFrame :=
  Spends.get.free fun _ => (lines_note _).free fun _ => lines_removePage _ _

theorem lines_skipOwnTable : Lines 0 (skipOwnTable pid) := by
  refine (lines_hardwareOf pid).free fun hp => Spends.get.free fun s => .ite ?_ (.pure _)
  exact lines_robin.free fun _ => .pure _

theorem lines_skipTables (fuel j : Nat) : Lines 0 (skipTables fuel j) := by
  induction fuel generalizing j with
  | zero => exact .throw fun _ => nofun
  | succ fuel ih =>
    rw [skipTables]
    refine Spends.get.free fun s => .ite ?_ (.pure _)
    exact lines_robin.free fun _ => .ite (.pure _) (ih (j + 1))

end Moves

/-! ## The loops -/

/-- The first loop of `freespace`, when it has counted up to `f`: it adds as many lines as it still
counts, and counts up to `n`. -/
def Counts (n f : Nat) (m : M (Nat × (Fin 4 → Bool))) : Prop :=
  ∀ s, wp m (fun r t => t.linecount + f ≤ s.linecount + r.1 ∧ r.1 ≤ max n f)
    (fun e t => t.linecount ≤ s.linecount + (n - f) ∧ Stops e t) s

section Loops

variable {α : Type} {n f : Nat} {m : M α} {g : α → M (Nat × (Fin 4 → Bool))} (pid : Int)

theorem Counts.pure (removed : Fin 4 → Bool) : Counts n f (pure (f, removed)) :=
  fun _ => ⟨le_rfl, le_max_right n f⟩

theorem Counts.free (hm : Lines 0 m) (hg : ∀ a, Counts n f (g a)) : Counts n f (m >>= g) := by
  intro s
  apply hm.wp_bind
  · intro a t ht
    apply wp_mono (hg a t)
    · intro r u hu
      exact ⟨by omega, hu.2⟩
    · intro e u hu
      exact ⟨by omega, hu.2⟩
  · intro e t ht he
    exact ⟨by omega, he⟩

/-- One line for one frame that is counted. -/
theorem Counts.one (hf : f < n) (hm : Lines 1 m) (hg : ∀ a, Counts n (f + 1) (g a)) :
    Counts n f (m >>= g) := by
  intro s
  apply hm.wp_bind
  · intro a t ht
    apply wp_mono (hg a t)
    · intro r u hu
      exact ⟨by omega, by omega⟩
    · intro e u hu
      exact ⟨by omega, hu.2⟩
  · intro e t ht he
    exact ⟨by omega, he⟩

theorem Counts.ite {c : Prop} [Decidable c] {m m' : M (Nat × (Fin 4 → Bool))}
    (hm : Counts n f m) (hm' : Counts n f m') : Counts n f (if c then m else m') := by
  split
  · exact hm
  · exact hm'

theorem counts_evictPages (fuel : Nat) (removed : Fin 4 → Bool) :
    Counts n f (evictPages n pid fuel f removed) := by
  induction fuel generalizing f removed with
  | zero => exact fun s => ⟨Nat.le_add_right _ _, nofun⟩
  | succ fuel ih =>
    rw [evictPages]
    by_cases hf : f < n
    · rw [if_pos hf]
      refine .free (lines_skipOwnTable pid) fun j => .free (lines_skipTables 5 j) fun j => ?_
      refine .free .get fun s => .ite ?_ ?_
      · refine .one hf lines_swapOutFrame fun _ => .free .get fun t => ?_
        refine .free (lines_say _) fun _ => .free lines_robin fun _ => ?_
        exact .ite (.pure _) (ih _)
      · exact .free lines_robin fun _ => .ite (.pure _) (ih _)
    · rw [if_neg hf]
      exact .pure removed

theorem lines_evictTables (removed : Fin 4 → Bool) (fuel : Nat) :
    Lines (n - f) (evictTables n pid removed fuel f) := by
  induction fuel generalizing f with
  | zero => exact .of_zero (.throw fun _ => nofun)
  | succ fuel ih =>
    rw [evictTables]
    by_cases hf : f < n
    · rw [if_pos hf]
      have hnext : 1 + (n - (f + 1)) = n - f := by omega
      refine (lines_skipOwnTable pid).free fun j => Spends.get.free fun s => .ite ?_ ?_
      · rw [← hnext]
        apply Spends.ite
        · exact (lines_removePageTable _).bind fun _ => lines_robin.free fun _ => ih
        · refine lines_swapOutFrame.bind fun _ => Spends.get.free fun t => ?_
          exact (lines_say _).free fun _ => ih
      · exact lines_robin.free fun _ => ih
    · rw [if_neg hf]
      exact .of_zero (.pure _)

/-- `freespace(n, pid)` swaps out `n` frames at most. -/
theorem lines_freespace (n : Nat) : Lines n (freespace n pid) := by
  refine lines_robin.free fun _ => Spends.get.free fun s t => ?_
  rw [wp_bind]
  apply wp_mono (counts_evictPages (n := n) (f := s.freeCount) pid loopFuel (fun _ => false) t)
  · intro r u hu
    apply wp_mono (lines_evictTables (n := n) (f := r.1) pid r.2 loopFuel u)
    · intro _ v hv
      omega
    · intro e v hv
      exact ⟨by omega, hv.2⟩
  · intro e u hu
    exact ⟨by omega, hu.2⟩

end Loops

/-! ## The commands -/

section Commands

variable (pid : Int) (vaddr : Nat) (val : UInt8)

theorem lines_obtainFrame : Lines 1 (obtainFrame pid) := by
  refine lines_findfree.free fun ppage => .ite ?_ (.of_zero (.pure _))
  refine (lines_freespace pid 1).last fun _ => lines_findfree.free fun ppage => ?_
  exact (lines_note _).free fun _ => .pure _

theorem lines_fetch : Lines 2 (fetch pid vaddr) := by
  have hnone : Lines 1 (pure () : M Unit) := .of_zero (.pure _)
  refine Spends.get.free fun s => (lines_hardwareOf pid).free fun hp => .ite ?_
    (.of_zero (.pure _))
  have hpage : Lines 1 (do
      let _ ← loadPageTable pid
      let pte ← findpte pid vaddr
      if (← peek (pte + 3)) = 1 then
        if ((s.freeCount : Nat) : Int) - 1 < 1 then freespace 1 pid
        let _ ← loadPage pid vaddr : M Unit) := by
    refine (lines_loadPageTable pid).free fun _ => (lines_findpte pid vaddr).free fun pte => ?_
    refine (lines_peek _).free fun valpres => .ite (.ite ?_ ?_) hnone
    · exact (lines_freespace pid 1).last fun _ => (lines_loadPage pid vaddr).free fun _ => .pure _
    · exact .of_zero ((lines_loadPage pid vaddr).free fun _ => .pure _)
  apply Spends.ite
  · exact (lines_freespace pid 1).bind fun _ => hpage
  · exact Spends.mono hpage (by decide)

theorem lines_command (access : Access) : Lines 2 (command access pid vaddr val) := by
  apply (lines_fetch pid vaddr).last
  intro _
  cases access with
  | s =>
    refine (lines_findpte pid vaddr).free fun pte => (lines_peek _).free fun writable => ?_
    refine .ite ((lines_convert pid vaddr).free fun paddr => ?_) (lines_say _)
    exact (lines_poke paddr val).free fun _ => lines_say _
  | l =>
    refine (lines_convert pid vaddr).free fun paddr => .ite ?_ (.pure _)
    exact (lines_peek paddr).free fun _ => lines_say _

theorem lines_store : Lines 2 (store pid vaddr val) := by
  refine (lines_findpte pid vaddr).free fun pte => .ite (.of_zero ?_) (.ite ?_ (.of_zero ?_))
  · refine (lines_convert pid vaddr).free fun paddr => .ite ?_ ?_
    · exact (lines_say _).free fun _ => .pure _
    · refine (lines_peek _).free fun writable => .ite ?_ ((lines_say _).free fun _ => .pure _)
      exact (lines_poke paddr val).free fun _ => (lines_say _).free fun _ => .pure _
  · exact (lines_command pid vaddr val .s).last fun _ => .pure _
  · exact .ite ((lines_say _).free fun _ => .pure _) (.pure _)

theorem lines_load : Lines 2 (load pid vaddr val) := by
  have hread (message : UInt8 → Message) (result : Int) : Lines 0 (do
      let paddr ← convert vaddr pid
      say (message (← peek paddr))
      return result : M Int) := by
    refine (lines_convert pid vaddr).free fun paddr => ?_
    exact (lines_peek paddr).free fun _ => (lines_say _).free fun _ => .pure _
  have hrest : Lines 0 (do
      let _ ← loadPage pid vaddr
      let paddr ← convert vaddr pid
      if paddr > 0 then
        say (.value vaddr (← peek paddr))
        return 1
      else
        return 0 : M Int) := by
    refine (lines_loadPage pid vaddr).free fun _ => (lines_convert pid vaddr).free fun paddr => ?_
    exact .ite ((lines_peek paddr).free fun _ => (lines_say _).free fun _ => .pure _) (.pure _)
  refine (lines_findpte pid vaddr).free fun pte => .ite ?_ (.ite ?_ (.of_zero ?_))
  · refine (lines_peek _).free fun valpres => .ite ?_ (.of_zero (.ite (hread _ _) (hread _ _)))
    refine Spends.get.free fun s => .ite (.of_zero hrest) ?_
    exact ((lines_freespace pid 1).last fun _ => hrest).mono (by decide)
  · exact (lines_command pid vaddr val .l).last fun _ => .pure _
  · exact .ite ((lines_say _).free fun _ => .pure _) (.pure _)

end Commands

/-! ## map -/

section Maps

variable {s u : Machine} {p t i : Fin 4} {vaddr : Nat} {val : UInt8}

/-- What follows `obtainFrame` in `map`. -/
theorem lines_enter (pid pte : Int) (ppage : Int) : Lines 0 (do
    setPages ppage pid
    say (.pageAllocated (← peek pte) ppage)
    poke (pte + 1) (UInt8.ofInt ppage)
    poke (pte + 2) val
    poke (pte + 3) 2
    return 1 : M Int) := by
  refine (lines_setPages pid ppage).free fun _ => (lines_peek pte).free fun vpn => ?_
  refine (lines_say _).free fun _ => (lines_poke _ _).free fun _ => ?_
  refine (lines_poke _ _).free fun _ => ?_
  exact (lines_poke _ _).free fun _ => .pure _

theorem lines_protect (pte : Int) : Lines 0 (do
    if (← peek (pte + 2)) = val then
      say (.alreadyHas val)
    else
      say .altered
      poke (pte + 2) val
    return 1 : M Int) := by
  refine (lines_peek _).free fun protection => .ite ?_ ?_
  · exact (lines_say _).free fun _ => .pure _
  · exact (lines_say _).free fun _ => (lines_poke _ _).free fun _ => .pure _

theorem lines_mapPage (pid : Int) : Lines 1 (mapPage pid vaddr val) := by
  refine (lines_findpte pid vaddr).free fun pte => (lines_peek _).free fun valpres => ?_
  exact .ite (.of_zero (lines_protect pte)) ((lines_obtainFrame pid).last fun ppage =>
    lines_enter pid pte ppage)

/-- A frame that is free is taken. -/
theorem mapPage_lines (ht : u.TableAt p t) (hfree : frameList.find? u.freelist = some i)
    (hv : vaddr < 64) : wp (mapPage p.val vaddr val) (fun _ v => v.linecount ≤ u.linecount)
      (fun e v => v.linecount ≤ u.linecount ∧ Stops e v) u := by
  apply wp_step (findpte_memory ht vaddr)
  apply wp_step (peek_valpres ht hv)
  rw [wp_ite]
  split_ifs with hpresent
  · exact lines_protect _ u
  · have hpos : ¬ (16 * (i.val : Int)) < 0 := by omega
    have hobtain : (obtainFrame p.val).run u =
        .ok (16 * i.val) (u.withFrames (u.toFrames.take i)) := by
      rw [obtainFrame, bind_of_ok (findfree_some hfree), if_neg hpos]
      rfl
    apply wp_step hobtain
    exact lines_enter _ _ _ _

/-- A new page table leaves a frame free for the page. -/
theorem Mapped.free (h : Mapped s u p) (hin : (s.hardware p).inmem = .unset) :
    ∃ t i, u.TableAt p t ∧ frameList.find? u.freelist = some i := by
  cases h with
  | there t ht hu => cases ht.inmem.symm.trans hin
  | fetched hfile hu => cases hfile.symm.trans hin
  | first hstart hu hval =>
    rw [hu]
    exact ⟨0, 1, Frames.starting_tableAt p 1, Frames.starting_find? p 1⟩
  | created f i hunset hf hi hu hval =>
    obtain ⟨-, j, hj⟩ := hf.owned_giveTable hi
    rw [hu]
    exact ⟨i, j, Frames.giveTable_tableAt, hj⟩

/-- A page table that comes back takes one frame. -/
theorem mapTable_lines (hin : (s.hardware p).inmem = .file) :
    wp (mapTable p.val vaddr) (fun _ u => u.linecount ≤ s.linecount + 1)
      (fun e u => u.linecount ≤ s.linecount + 1 ∧ Stops e u) s := by
  have hfetch : Lines 1 (do
      freespace 1 p.val
      let pt ← loadPageTable p.val
      setPages pt p.val
      setIspagetable pt true
      say (.tableLoadedFor p.val pt) : M Unit) := by
    refine (lines_freespace p.val 1).last fun _ => (lines_loadPageTable p.val).free fun pt => ?_
    exact (lines_setPages _ _).free fun _ => (lines_setIspagetable _ _).free fun _ => lines_say _
  apply wp_step (findpte_file hin vaddr)
  rw [if_neg (by decide)]
  apply wp_step (findpte_file hin vaddr)
  rw [if_pos rfl]
  exact hfetch s

theorem lines_mapTable (pid : Int) : Lines 2 (mapTable pid vaddr) := by
  have hentries : Lines 0 (forM (List.range 4) fun (i : Nat) => do
      let hp ← hardwareOf pid
      poke (hp.address + 4 * i) (UInt8.ofNat i)
      poke (hp.address + 4 * i + 3) 0 : M PUnit) :=
    .forM _ fun _ _ => (lines_hardwareOf pid).free fun _ =>
      (lines_poke _ _).free fun _ => lines_poke _ _
  refine (lines_findpte pid vaddr).free fun pte => .ite ?_ ?_
  · refine (lines_freespace pid 2).last fun _ => lines_findfree.free fun free => ?_
    refine (lines_note _).free fun _ => (lines_say _).free fun _ => ?_
    refine (lines_setHardware pid _).free fun _ => (lines_setPages pid free).free fun _ => ?_
    exact (lines_setIspagetable free true).free fun _ => hentries
  · refine (lines_findpte pid vaddr).free fun pte => .ite ?_ (.of_zero (.pure _))
    refine Spends.mono ((lines_freespace pid 1).last fun _ => ?_) (by decide)
    refine (lines_loadPageTable pid).free fun pt => (lines_setPages pid pt).free fun _ => ?_
    exact (lines_setIspagetable pt true).free fun _ => lines_say _

/-- Two lines at most: for one page when the page table is there, for two frames when it is made,
and for one frame and one page when it comes back. -/
theorem lines_map (hdisk : s.DiskOk) (hcalls : s.CallsOk) (hstage : s.Stage) (hv : vaddr < 64) :
    wp (map p.val vaddr val) (fun _ u => u.linecount ≤ s.linecount + 2)
      (fun e u => u.linecount ≤ s.linecount + 2 ∧ Stops e u) s := by
  cases hin : (s.hardware p).inmem with
  | memory =>
    obtain ⟨t, ht⟩ := hstage.resident hin
    apply wp_step (mapTable_memory ht vaddr)
    exact Spends.mono (lines_mapPage p.val) (by decide) s
  | file =>
    rw [map, wp_bind]
    apply wp_mono (mapTable_lines hin)
    · intro _ u hu
      apply wp_mono (lines_mapPage p.val u)
      · intro _ v hv
        omega
      · intro e v hv
        exact ⟨by omega, hv.2⟩
    · intro e u hu
      exact ⟨by omega, hu.2⟩
  | unset =>
    rw [map, wp_bind]
    apply wp_mono (wp_and (lines_mapTable p.val s) (mapTable_yields hdisk hcalls hstage))
    · intro _ u hu
      obtain ⟨t, i, ht, hfree⟩ := hu.2.1.free hin
      apply wp_mono (mapPage_lines ht hfree hv)
      · intro _ v hv
        exact hv.trans hu.1
      · intro e v hv
        exact ⟨hv.1.trans hu.1, hv.2⟩
    · intro e u hu
      exact hu.1

end Maps

section Commands

variable {s : Machine}

theorem exec_lines (hdisk : s.DiskOk) (hstage : s.Stage) (c : Cmd) :
    wp (exec c) (fun _ u => u.linecount ≤ s.linecount + 2)
      (fun e u => u.linecount ≤ s.linecount + 2 ∧ Stops e u) s := by
  have hdisk' : s.reset.DiskOk := hdisk.congr rfl rfl rfl
  apply wp_congr (exec_run c)
  cases c with
  | map p vaddr val => exact lines_map hdisk' reset_callsOk hstage vaddr.isLt
  | store p vaddr val => exact lines_store p.val vaddr.val val s.reset
  | load p vaddr val => exact lines_load p.val vaddr.val val s.reset

/-- The frames of a command that swaps pages out. -/
theorem victims_length (s : Machine) (c : Cmd) : (c.victims s).length ≤ 2 := by
  unfold Cmd.victims
  cases (s.hardware c.pid).inmem with
  | memory =>
    dsimp only
    split_ifs <;> simp
  | file => simp
  | unset =>
    dsimp only [Frames.roomVictims]
    split_ifs <;> simp

end Commands

end Cs3013.Memory
