import Cs3013.Memory.Commands

/-!
# Along which relations the routines lead

Every routine of `memory.c` is made of the same few assignments. A relation between machines that
they all respect is respected by every routine and every command. What a call of `pageToFile` does
to the file and what an assignment does to `hardware` is left to the relation, and the processes
whose entry of `hardware` may be assigned are a parameter.
-/
namespace Cs3013.Memory

open Cs3013.Library.Faulting

/-- The swap file and what has been written to it. -/
def Machine.file (s : Machine) : Nat × List Char × List (List UInt8) :=
  (s.linecount, s.swapspace, s.written)

variable {R : Machine → Machine → Prop} {own : Int → Prop}

/-- What leaves the file and `hardware` alone leads along `R`, and so does a line of the file. -/
structure Framed (R : Machine → Machine → Prop) : Prop where
  rest : ∀ s t : Machine, t.file = s.file → t.hardware = s.hardware → R s t
  append : ∀ base, Evolves R (appendPage base)

/-- So does a page table that goes to the file, and an entry of `hardware` for a process
in `own`. -/
structure Allowed (R : Machine → Machine → Prop) (own : Int → Prop) : Prop extends Framed R where
  assign : ∀ pid hp, own pid → Evolves R (setHardware pid hp)
  table : ∀ pid, Evolves R (removePageTable pid)

section Assignments

variable (h : Framed R)

include h

theorem Framed.of_preserves {α : Type} {m : M α}
    (hm : Preserves Fault.Real (fun s : Machine => (s.file, s.hardware)) m) : Evolves R m :=
  Evolves.of_preserves hm fun s t ht =>
    h.rest s t (congrArg Prod.fst ht) (congrArg Prod.snd ht)

theorem Framed.of_modify {f : Machine → Machine}
    (hf : ∀ s, (f s).file = s.file ∧ (f s).hardware = s.hardware) :
    Evolves R (modify f : M PUnit) :=
  .modify fun s => h.rest _ _ (hf s).1 (hf s).2

theorem Framed.evolves_peek (i : Int) : Evolves R (peek i) := h.of_preserves (peek_preserves i)

theorem Framed.evolves_poke (i : Int) (v : UInt8) : Evolves R (poke i v) := by
  apply h.of_preserves
  intro s
  unfold wp EStateM.run poke
  split_ifs
  · rfl
  · exact ⟨nofun, rfl⟩

theorem Framed.evolves_say (m : Message) : Evolves R (say m) := h.of_modify fun _ => ⟨rfl, rfl⟩

theorem Framed.evolves_note (c : Call) : Evolves R (note c) := h.of_modify fun _ => ⟨rfl, rfl⟩

theorem Framed.evolves_uninitialised : Evolves R uninitialised := fun _ => h.rest _ _ rfl rfl

theorem Framed.evolves_robin : Evolves R robin := h.of_modify fun _ => ⟨rfl, rfl⟩

variable [IsPreorder Machine R] (pid address : Int)

theorem Framed.evolves_setPages : Evolves R (setPages address pid) :=
  (h.of_preserves (frameIndex_preserves address)).bind fun _ => h.of_modify fun _ => ⟨rfl, rfl⟩

theorem Framed.evolves_setFreelist (free : Bool) : Evolves R (setFreelist address free) :=
  (h.of_preserves (frameIndex_preserves address)).bind fun _ => h.of_modify fun _ => ⟨rfl, rfl⟩

theorem Framed.evolves_setIspagetable (table : Bool) :
    Evolves R (setIspagetable address table) :=
  (h.of_preserves (frameIndex_preserves address)).bind fun _ => h.of_modify fun _ => ⟨rfl, rfl⟩

omit [IsPreorder Machine R] in
theorem Framed.evolves_findpte (vaddr : Nat) : Evolves R (findpte pid vaddr) :=
  h.of_preserves (findpte_preserves pid vaddr)

omit [IsPreorder Machine R] in
theorem Framed.evolves_convert (vaddr : Nat) : Evolves R (convert vaddr pid) :=
  h.of_preserves (convert_preserves pid vaddr)

omit [IsPreorder Machine R] in
theorem Framed.evolves_hardwareOf : Evolves R (hardwareOf pid) :=
  h.of_preserves (hardwareOf_preserves pid)

theorem Framed.evolves_pageFromFile (buffer : Page) (linenum : Int) :
    Evolves R (pageFromFile buffer linenum) := by
  refine .bind .get fun s => .ite ((h.evolves_say _).seq (.pure _)) ?_
  split
  · exact .throw _
  · exact .pure _

end Assignments

variable [IsPreorder Machine R]

section Moves

variable (pid : Int)

theorem Framed.evolves_findfree (h : Framed R) : Evolves R findfree := by
  refine .bind .get fun s => ?_
  split
  · exact (h.evolves_setFreelist _ _).seq (.pure _)
  · exact .pure _

theorem Framed.evolves_swaptomem (h : Framed R) (temp : Page) (base : Int) :
    Evolves R (swaptomem temp base) :=
  .forM _ fun _ _ => h.evolves_poke _ _

theorem Framed.evolves_clear (h : Framed R) (base : Int) :
    Evolves R (forM (List.range 16) fun (i : Nat) => poke (base + i) 0 : M PUnit) :=
  .forM _ fun _ _ => h.evolves_poke _ _

theorem Allowed.evolves_loadPageTable (h : Allowed R own) (hpid : own pid) :
    Evolves R (loadPageTable pid) := by
  refine (h.evolves_hardwareOf pid).bind fun hp => ?_
  refine h.evolves_findfree.bind fun free => ?_
  apply (h.evolves_note _).seq
  refine h.evolves_uninitialised.bind fun temp => ?_
  refine (h.evolves_pageFromFile temp hp.address).bind fun result => ?_
  apply (h.evolves_swaptomem result.2 free).seq
  apply (h.evolves_setPages pid free).seq
  apply (h.assign pid _ hpid).seq
  apply (h.evolves_setIspagetable free true).seq
  exact (h.evolves_say _).seq (.pure _)

theorem Framed.evolves_loadPage (h : Framed R) (vaddr : Nat) :
    Evolves R (loadPage pid vaddr) := by
  refine (h.evolves_findpte pid vaddr).bind fun pte => ?_
  refine (h.evolves_peek (pte + 1)).bind fun line => ?_
  refine h.evolves_findfree.bind fun free => ?_
  apply (h.evolves_note _).seq
  refine h.evolves_uninitialised.bind fun temp => ?_
  refine (h.evolves_pageFromFile temp line.toNat).bind fun result => ?_
  apply (h.evolves_swaptomem result.2 free).seq
  apply (h.evolves_setPages pid free).seq
  -- `loadPage` looks the entry up anew for each of the two bytes that it assigns
  refine (h.evolves_findpte pid vaddr).bind fun pte => (h.evolves_poke _ _).seq ?_
  refine (h.evolves_findpte pid vaddr).bind fun pte => (h.evolves_poke _ _).seq ?_
  exact (h.evolves_say _).seq (.pure _)

theorem Framed.evolves_removePageTable (h : Framed R)
    (hset : ∀ hp, Evolves R (setHardware pid hp)) : Evolves R (removePageTable pid) := by
  refine (h.evolves_findpte pid 0).bind fun pt => ?_
  refine (h.append pt).bind fun line => ?_
  apply (hset _).seq
  apply (h.evolves_setFreelist pt true).seq
  apply (h.evolves_setIspagetable pt false).seq
  apply (h.evolves_clear pt).seq
  exact (h.evolves_setPages (-1) pt).seq (h.evolves_say _)

theorem Framed.evolves_removePage (h : Framed R) (paddr : Int) :
    Evolves R (removePage pid paddr) := by
  refine (h.evolves_findpte pid 0).bind fun pte => ?_
  refine (h.of_preserves (searchTable_preserves pte paddr)).bind fun vp => ?_
  refine (h.append paddr).bind fun fadr => ?_
  apply (h.evolves_poke _ _).seq
  apply (h.evolves_poke _ _).seq
  apply (h.evolves_clear paddr).seq
  exact (h.evolves_setFreelist paddr true).seq (h.evolves_setPages (-1) paddr)

end Moves

section Eviction

variable (n : Nat) (pid : Int)

theorem Framed.evolves_skipOwnTable (h : Framed R) : Evolves R (skipOwnTable pid) := by
  refine (h.evolves_hardwareOf pid).bind fun hp => .bind .get fun s => .ite ?_ (.pure _)
  exact h.evolves_robin.seq (.pure _)

theorem Framed.evolves_skipTables (h : Framed R) (fuel j : Nat) :
    Evolves R (skipTables fuel j) := by
  induction fuel generalizing j with
  | zero => exact .throw _
  | succ fuel ih =>
    rw [skipTables]
    refine .bind .get fun s => .ite ?_ (.pure _)
    exact h.evolves_robin.seq (.ite (.pure _) (ih (j + 1)))

theorem Framed.evolves_swapOutFrame (h : Framed R) : Evolves R swapOutFrame :=
  .bind .get fun _ => (h.evolves_note _).seq (h.evolves_removePage _ _)

theorem Framed.evolves_evictPages (h : Framed R) (fuel f : Nat) (removed : Fin 4 → Bool) :
    Evolves R (evictPages n pid fuel f removed) := by
  induction fuel generalizing f removed with
  | zero => exact .throw _
  | succ fuel ih =>
    rw [evictPages]
    refine .ite ?_ (.pure _)
    refine (h.evolves_skipOwnTable pid).bind fun j => ?_
    refine (h.evolves_skipTables 5 j).bind fun j => ?_
    refine .bind .get fun s => .ite ?_ ?_
    · apply h.evolves_swapOutFrame.seq
      refine .bind .get fun t => (h.evolves_say _).seq ?_
      exact h.evolves_robin.seq (.ite (.pure _) (ih _ _))
    · exact h.evolves_robin.seq (.ite (.pure _) (ih _ _))

theorem Allowed.evolves_evictTables (h : Allowed R own) (removed : Fin 4 → Bool)
    (fuel f : Nat) : Evolves R (evictTables n pid removed fuel f) := by
  induction fuel generalizing f with
  | zero => exact .throw _
  | succ fuel ih =>
    rw [evictTables]
    refine .ite ?_ (.pure _)
    apply (h.evolves_skipOwnTable pid).seq
    refine .bind .get fun s => .ite (.ite ?_ ?_) ?_
    · exact (h.table _).seq (h.evolves_robin.seq (ih _))
    · exact h.evolves_swapOutFrame.seq (.bind .get fun t => (h.evolves_say _).seq (ih _))
    · exact h.evolves_robin.seq (ih _)

theorem Allowed.evolves_freespace (h : Allowed R own) : Evolves R (freespace n pid) := by
  apply h.evolves_robin.seq
  refine .bind .get fun s => (h.evolves_evictPages n pid _ _ _).bind fun r => ?_
  exact h.evolves_evictTables n pid r.2 _ _

end Eviction

section Commands

variable (pid : Int) (vaddr : Nat) (val : UInt8)

theorem Allowed.evolves_freespace_if (h : Allowed R own) {c : Prop} [Decidable c] {α : Type}
    {m : M α} (hm : Evolves R m) :
    Evolves R (if c then (do freespace 1 pid; m) else m) :=
  .ite ((h.evolves_freespace 1 pid).seq hm) hm

theorem Allowed.evolves_fetch (h : Allowed R own) (hpid : own pid) :
    Evolves R (fetch pid vaddr) := by
  refine .bind .get fun s => (h.evolves_hardwareOf pid).bind fun hp => .ite ?_ (.pure _)
  apply h.evolves_freespace_if pid
  apply (h.evolves_loadPageTable pid hpid).seq
  refine (h.evolves_findpte pid vaddr).bind fun pte => ?_
  refine (h.evolves_peek (pte + 3)).bind fun valpres => .ite ?_ (.pure _)
  exact h.evolves_freespace_if pid ((h.evolves_loadPage pid vaddr).seq (.pure _))

theorem Allowed.evolves_command (h : Allowed R own) (hpid : own pid) (access : Access) :
    Evolves R (command access pid vaddr val) := by
  apply (h.evolves_fetch pid vaddr hpid).seq
  cases access with
  | s =>
    refine (h.evolves_findpte pid vaddr).bind fun pte => ?_
    refine (h.evolves_peek _).bind fun writable => .ite ?_ (h.evolves_say _)
    refine (h.evolves_convert pid vaddr).bind fun paddr => ?_
    exact (h.evolves_poke paddr val).seq (h.evolves_say _)
  | l =>
    refine (h.evolves_convert pid vaddr).bind fun paddr => .ite ?_ (.pure _)
    exact (h.evolves_peek paddr).bind fun _ => h.evolves_say _

theorem Allowed.evolves_store (h : Allowed R own) (hpid : own pid) :
    Evolves R (store pid vaddr val) := by
  refine (h.evolves_findpte pid vaddr).bind fun pte => .ite ?_ (.ite ?_ (.ite ?_ (.pure _)))
  · refine (h.evolves_convert pid vaddr).bind fun paddr => .ite ?_ ?_
    · exact (h.evolves_say _).seq (.pure _)
    · refine (h.evolves_peek _).bind fun writable => .ite ?_ ((h.evolves_say _).seq (.pure _))
      exact (h.evolves_poke paddr val).seq ((h.evolves_say _).seq (.pure _))
  · exact (h.evolves_command pid vaddr val hpid .s).seq (.pure _)
  · exact (h.evolves_say _).seq (.pure _)

theorem Allowed.evolves_mapTable (h : Allowed R own) (hpid : own pid) :
    Evolves R (mapTable pid vaddr) := by
  refine (h.evolves_findpte pid vaddr).bind fun pte => .ite ?_ ?_
  · apply (h.evolves_freespace 2 pid).seq
    refine h.evolves_findfree.bind fun free => ?_
    apply (h.evolves_note _).seq
    apply (h.evolves_say _).seq
    apply (h.assign pid _ hpid).seq
    apply (h.evolves_setPages pid free).seq
    apply (h.evolves_setIspagetable free true).seq
    refine .forM _ fun i _ => (h.evolves_hardwareOf pid).bind fun hp => ?_
    exact (h.evolves_poke _ _).seq (h.evolves_poke _ _)
  · refine (h.evolves_findpte pid vaddr).bind fun pte => .ite ?_ (.pure _)
    apply (h.evolves_freespace 1 pid).seq
    refine (h.evolves_loadPageTable pid hpid).bind fun pt => ?_
    apply (h.evolves_setPages pid pt).seq
    exact (h.evolves_setIspagetable pt true).seq (h.evolves_say _)

theorem Allowed.evolves_obtainFrame (h : Allowed R own) : Evolves R (obtainFrame pid) := by
  refine h.evolves_findfree.bind fun ppage => .ite ?_ (.pure _)
  apply (h.evolves_freespace 1 pid).seq
  exact h.evolves_findfree.bind fun ppage => (h.evolves_note _).seq (.pure _)

theorem Allowed.evolves_mapPage (h : Allowed R own) : Evolves R (mapPage pid vaddr val) := by
  refine (h.evolves_findpte pid vaddr).bind fun pte => ?_
  refine (h.evolves_peek _).bind fun valpres => .ite ?_ ?_
  · refine (h.evolves_peek _).bind fun protection => .ite ?_ ?_
    · exact (h.evolves_say _).seq (.pure _)
    · exact (h.evolves_say _).seq ((h.evolves_poke _ _).seq (.pure _))
  · refine (h.evolves_obtainFrame pid).bind fun ppage => ?_
    apply (h.evolves_setPages pid ppage).seq
    refine (h.evolves_peek pte).bind fun vpn => (h.evolves_say _).seq ?_
    apply (h.evolves_poke _ _).seq
    apply (h.evolves_poke _ _).seq
    exact (h.evolves_poke _ _).seq (.pure _)

theorem Allowed.evolves_map (h : Allowed R own) (hpid : own pid) :
    Evolves R (map pid vaddr val) :=
  (h.evolves_mapTable pid vaddr hpid).seq (h.evolves_mapPage pid vaddr val)

theorem Allowed.evolves_load (h : Allowed R own) (hpid : own pid) :
    Evolves R (load pid vaddr val) := by
  have hread (message : UInt8 → Message) (result : Int) : Evolves R (do
      let paddr ← convert vaddr pid
      say (message (← peek paddr))
      return result : M Int) := by
    refine (h.evolves_convert pid vaddr).bind fun paddr => ?_
    exact (h.evolves_peek paddr).bind fun _ => (h.evolves_say _).seq (.pure _)
  refine (h.evolves_findpte pid vaddr).bind fun pte => .ite ?_ (.ite ?_ (.ite ?_ (.pure _)))
  · refine (h.evolves_peek _).bind fun valpres => .ite ?_ (.ite (hread _ _) (hread _ _))
    have hrest : Evolves R (do
        let _ ← loadPage pid vaddr
        let paddr ← convert vaddr pid
        if paddr > 0 then
          say (.value vaddr (← peek paddr))
          return 1
        else
          return 0 : M Int) := by
      apply (h.evolves_loadPage pid vaddr).seq
      refine (h.evolves_convert pid vaddr).bind fun paddr => .ite ?_ (.pure _)
      exact (h.evolves_peek paddr).bind fun _ => (h.evolves_say _).seq (.pure _)
    exact .bind .get fun s => .ite hrest ((h.evolves_freespace 1 pid).seq hrest)
  · exact (h.evolves_command pid vaddr val hpid .l).seq (.pure _)
  · exact (h.evolves_say _).seq (.pure _)

theorem Allowed.evolves_exec (h : Allowed R own) (c : Cmd) (hpid : own c.pid.val) :
    Evolves R (exec c) := by
  have hclear : Evolves R (modify fun s => { s with out := [], calls := [] } : M PUnit) :=
    h.of_modify fun _ => ⟨rfl, rfl⟩
  apply hclear.seq
  cases c with
  | map pid vaddr val => exact h.evolves_map pid.val vaddr.val val hpid
  | store pid vaddr val => exact h.evolves_store pid.val vaddr.val val hpid
  | load pid vaddr val => exact h.evolves_load pid.val vaddr.val val hpid

end Commands

end Cs3013.Memory
