import Cs3013.Memory.SoundRuns

/-!
# Two maps in a row

Every path through `map` ends with the page table of the process in memory and with the entry of
the page present and protected as asked. A second call finds this entry and only prints that the
page already has the value.
-/
namespace Cs3013.Memory

open Cs3013.Library.Faulting Cs3013.Library.Transition Machine

/-- What `map` leaves: the page table of `p` lies in frame `t`, and the entry of the page is present
with the protection `val`. -/
structure Settled (s : Machine) (p t : Fin 4) (vaddr : Fin 64) (val : UInt8) : Prop where
  table : s.TableAt p t
  prot : (s.entry p (vpage vaddr)).prot = val
  present : (s.entry p (vpage vaddr)).val = 2

namespace Frames

/-- Taking a frame for a page moves no page table. -/
theorem supply_hardware (f : Frames) (p : Fin 4) : (f.supply p).hardware = f.hardware := by
  unfold supply
  split <;> rfl

end Frames

section Commands

variable {s u : Machine} {p t : Fin 4} {vaddr : Fin 64} {val : UInt8}

/-- `map` where it has been before. -/
theorem map_settled (h : Settled s p t vaddr val) :
    (map p.val vaddr.val val).run s = .ok 1 (s.printed (.alreadyHas val)) := by
  rw [map, bind_of_ok (mapTable_memory h.table vaddr.val), mapPage,
    bind_of_ok (findpte_memory h.table vaddr.val), bind_of_ok (peek_val h.table vaddr),
    if_pos h.present, bind_of_ok (peek_prot h.table vaddr), if_pos h.prot, bind_of_ok (say_ok _)]
  rfl

/-- The two bytes of the entry that a second `map` looks at. -/
theorem Settled.of_bytes (ht : s.TableAt p t)
    (hprot : s.byte (16 * t.val + 4 * (vaddr.val / 16) + 2) = val)
    (hpresent : s.byte (16 * t.val + 4 * (vaddr.val / 16) + 3) = 2) :
    Settled s p t vaddr val :=
  ⟨ht, (tableByte_memory ht _).trans hprot, (tableByte_memory ht _).trans hpresent⟩

/-- The second part of `map` leaves a settled entry, whether it alters the page or takes a frame. -/
theorem mapPage_settles (hdisk : s.DiskOk) (hcalls : s.CallsOk) (hready : s.Ready)
    (ht : s.TableAt p t) :
    wp (mapPage p.val vaddr.val val) (fun _ u => Settled u p t vaddr val) (fun _ _ => True) s := by
  by_cases hval : (s.entry p (vpage vaddr)).val = 2
  · apply wp_step (findpte_memory ht vaddr.val)
    apply wp_step (peek_val ht vaddr)
    rw [if_pos hval]
    apply wp_step (peek_prot ht vaddr)
    by_cases hprot : (s.entry p (vpage vaddr)).prot = val
    · rw [if_pos hprot]
      exact ⟨ht, hprot, hval⟩
    · rw [if_neg hprot]
      apply wp_step (say_ok _)
      apply wp_step (poke_eq (a := 16 * t.val + 4 * (vaddr.val / 16) + 2) (by push_cast; rfl)
        (by omega) _)
      show Settled _ p t vaddr val
      apply Settled.of_bytes
      · exact ht
      · rw [byte_write _ (by omega), if_pos rfl]
      · rw [byte_write _ (by omega), if_neg (by omega), printed_byte]
        exact (tableByte_memory ht _).symm.trans hval
  · apply mapPage_obtained ht hval
    apply wp_forget (obtainFrame_yields hdisk hcalls hready p)
    intro _ u hu
    obtain ⟨⟨i, rfl, hframes⟩, -⟩ := hu
    refine ⟨i, rfl, ?_⟩
    have ht' : u.TableAt p t := by
      have hhardware : u.hardware = (s.toFrames.supply p).hardware := by
        rw [← hframes]
        rfl
      rw [Frames.TableAt, hhardware, Frames.supply_hardware]
      exact ht
    apply Settled.of_bytes
    · exact ht'
    · rw [byte_write _ (by omega), if_neg (by omega), byte_write _ (by omega), if_pos rfl]
    · rw [byte_write _ (by omega), if_pos rfl]

theorem map_settles (hdisk : s.DiskOk) (hcalls : s.CallsOk) (hstage : s.Stage) :
    wp (map p.val vaddr.val val) (fun _ u => ∃ t, Settled u p t vaddr val) (fun _ _ => True) s := by
  apply wp_seq (wp_forget (mapTable_yields hdisk hcalls hstage) fun _ _ h => h)
  intro _ u hu
  obtain ⟨hmapped, hdisk', hcalls'⟩ := hu
  obtain ⟨hready, t, ht⟩ := hmapped.ready hstage
  exact wp_imp (mapPage_settles hdisk' hcalls' hready ht) fun _ _ h => ⟨t, h⟩

end Commands

/-! ## Runs -/

section Runs

variable {s t : Machine} {h : List Event} {p : Fin 4} {vaddr : Fin 64} {val : UInt8} {r : Int}

/-- In every state that a run reaches, a second map right after one that finishes returns and
changes nothing: neither the memory nor its control data nor the swap file. -/
theorem map_idempotent (hrun : memsim.Run h s) (hmap : (exec (.map p vaddr val)).run s = .ok r t) :
    ∃ u, (exec (.map p vaddr val)).run t = .ok 1 u ∧ u.mem = t.mem ∧ u.toFrames = t.toFrames ∧
      u.linecount = t.linecount ∧ u.swapspace = t.swapspace := by
  obtain ⟨hdisk, hstage⟩ := run_stage hrun
  have hdisk' : s.reset.DiskOk := hdisk.congr rfl rfl rfl
  have hsettles :
      wp (map p.val vaddr.val val) (fun _ u => ∃ d, Settled u p d vaddr val) _ s.reset :=
    map_settles hdisk' reset_callsOk hstage
  obtain ⟨d, hsettled⟩ := wp_ok hsettles hmap
  have hreset : Settled t.reset p d vaddr val := ⟨hsettled.table, hsettled.prot, hsettled.present⟩
  exact ⟨_, map_settled hreset, rfl, rfl, rfl, rfl⟩

theorem fourProcesses_remap : ∃ h s, memsim.RunIf (fun _ _ => True) h s ∧
    h.map Event.cmd = fourProcesses.reverse ∧
      wp (exec (.map 0 16 1)) (fun _ u => s.linecount + 2 = u.linecount) (fun _ _ => False) s :=
  exists_run (fun _ _ => True) [] (by decide +kernel)

/-- The first of the two maps reads a page table from the file and swaps out two pages. -/
theorem map_idempotent_four : ∃ h s t u r, memsim.Run h s ∧
    h.map Event.cmd = fourProcesses.reverse ∧ (exec (.map 0 16 1)).run s = .ok r t ∧
    t.linecount = s.linecount + 2 ∧ (exec (.map 0 16 1)).run t = .ok 1 u ∧
    u.mem = t.mem ∧ u.toFrames = t.toFrames ∧ u.linecount = t.linecount ∧
    u.swapspace = t.swapspace := by
  obtain ⟨h, s, hrun, hcmds, hmap⟩ := fourProcesses_remap
  obtain ⟨r, t, hexec, hcount⟩ := ok_of_wp hmap
  obtain ⟨u, hagain, hsame⟩ := map_idempotent hrun hexec
  exact ⟨h, s, t, u, r, hrun, hcmds, hexec, hcount.symm, hagain, hsame⟩

end Runs

end Cs3013.Memory
