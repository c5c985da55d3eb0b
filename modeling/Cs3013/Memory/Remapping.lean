import Cs3013.Memory.Contents
import Cs3013.Memory.Idempotence
import Cs3013.Memory.SwapLog

/-!
# Mapping a page again

`load` and `command` call `loadPage` for a page on disk; `map` takes an empty frame for it and
leaves its line in the file behind. A page that has been mapped before keeps its bytes, to every
load that comes later, unless it is on disk and one of its bytes is not 0.
-/
namespace Cs3013.Memory

open Cs3013.Library.Faulting Cs3013.Library.Transition Machine

def Cmd.isStore : Cmd → Bool
  | .store _ _ _ => true
  | _ => false

/-- A map of a page on disk that has a byte other than 0. -/
def Empties (s : Machine) : Cmd → Prop
  | .map pid vaddr _ => (s.entry pid (vpage vaddr)).val = 1 ∧
      ∃ o : Fin 16, s.pageByte pid (vpage vaddr) o.val ≠ 0
  | _ => False

/-- The commands that leave the contents of all pages alone. -/
def KeepsPages (s : Machine) (c : Cmd) : Prop :=
  Orderly s c ∧ c.isStore = false ∧ ¬ Empties s c ∧ Fits s.linecount (c.victims s)

instance (s : Machine) (c : Cmd) : Decidable (Empties s c) :=
  match c with
  | .map _ _ _ => inferInstanceAs (Decidable (_ ∧ ∃ _, _))
  | .store _ _ _ | .load _ _ _ => inferInstanceAs (Decidable False)

instance (s : Machine) (c : Cmd) : Decidable (KeepsPages s c) :=
  inferInstanceAs (Decidable (_ ∧ _))

/-- Some load of `vaddr` reports `b`, at once or after commands that are no stores. -/
def Reports (s : Machine) (p : Fin 4) (vaddr : Fin 64) (b : UInt8) : Prop :=
  ∃ h t e u, memsim.Steps (fun s e => KeepsPages s e.cmd) s h t ∧ KeepsPages t e.cmd ∧
    memsim.step t e u ∧ (∃ val, e.cmd = .load p vaddr val) ∧ .value vaddr.val b ∈ e.out

/-- What a map of a page that has been mapped before is meant to do, from `s` to `u`. -/
structure PageKept (s u : Machine) (p : Fin 4) (vaddr : Fin 64) (val : UInt8) : Prop where
  prot : (u.entry p (vpage vaddr)).prot = val
  bytes : ∀ w, vpage w = vpage vaddr → ∀ b, Reports u p w b ↔ b = s.contents p w

/-! ## Commands between the map and the load -/

section Commands

variable {s t u : Machine} {p : Fin 4} {vaddr w : Fin 64} {val b : UInt8} {c : Cmd} {r : Int}
  {e : Event} {h : List Event}

theorem KeepsPages.guarded (hk : KeepsPages s c) : Guarded s c := by
  refine ⟨hk.1, fun hbad => ?_⟩
  cases c with
  | store p vaddr val => cases hk.2.1
  | map p vaddr val => exact hbad
  | load p vaddr val => exact hbad

/-- A map that empties no page meets the condition of `map_carried`. -/
theorem page_zero (hempties : ¬ Empties s (.map p vaddr val))
    (h1 : (s.entry p (vpage vaddr)).val = 1) : ∀ o < 16, s.pageByte p (vpage vaddr) o = 0 := by
  intro o ho
  by_contra hne
  exact hempties ⟨h1, ⟨o, ho⟩, hne⟩

theorem exec_keeps (hs : Sound s) (hk : KeepsPages s c) :
    wp (exec c) (fun _ u => u.contents = s.contents) (fun _ _ => True) s := by
  obtain ⟨ho, hstore, hempties, hfits⟩ := hk
  apply wp_congr (exec_run c)
  cases c with
  | map p vaddr val =>
    apply wp_forget (map_carried hs.reset reset_callsOk ho.reset)
    intro _ u hu
    exact contents_congr (hu.contents ⟨hfits, fun h1 => page_zero (s := s) hempties h1⟩)
  | load p vaddr val => exact load_contents hs.reset ho.reset hfits
  | store p vaddr val => cases hstore

theorem step_keeps (hs : Sound s) (hk : KeepsPages s e.cmd) (hstep : memsim.step s e u) :
    Sound u ∧ u.contents = s.contents := by
  have hcontents := wp_ok (exec_keeps hs hk) hstep.1
  exact ⟨step_sound hs hk.guarded.1 hk.guarded.2 hstep, hcontents⟩

theorem steps_keep (hs : Sound s)
    (hsteps : memsim.Steps (fun s e => KeepsPages s e.cmd) s h t) :
    Sound t ∧ t.contents = s.contents := by
  apply hsteps.invariant (I := fun _ t => Sound t ∧ t.contents = s.contents)
  · exact ⟨hs, rfl⟩
  · intro _ t e u hinv hk hstep
    obtain ⟨hsound, hcontents⟩ := step_keeps hinv.1 hk hstep
    exact ⟨hsound, hcontents.trans hinv.2⟩

/-- Such a load can only report the byte that the page holds now. -/
theorem Reports.contents (hs : Sound s) (hreports : Reports s p vaddr b) :
    b = s.contents p vaddr := by
  obtain ⟨h, t, e, u, hsteps, hk, hstep, ⟨val, hcmd⟩, hvalue⟩ := hreports
  obtain ⟨ht, hcontents⟩ := steps_keep hs hsteps
  obtain ⟨hexec, hout⟩ := hstep
  rw [hcmd] at hk hexec
  rw [hout] at hvalue
  rw [← hcontents]
  exact wp_ok (exec_load_value ht hk.1 hk.2.2.2) hexec hvalue

/-- A load of a page in memory takes no frame. -/
theorem load_keeps {d : Fin 4} (ht : s.TableAt p d) (h2 : (s.entry p (vpage vaddr)).val = 2) :
    KeepsPages s (.load p vaddr val) := by
  have htakes : ¬ Cmd.takesPage s (.load p vaddr val) := by
    show ¬ (s.entry p (vpage vaddr)).val = 1
    rw [h2]
    decide
  have hvictims : Cmd.victims s (.load p vaddr val) = [] := by
    rw [Cmd.victims, show (s.hardware (Cmd.load p vaddr val).pid).inmem = .memory from ht.inmem]
    exact if_neg fun hall => htakes hall.1
  refine ⟨⟨fun htable => htakes htable.1, ?_⟩, rfl, id, ?_⟩
  · rw [hvictims]
    trivial
  · rw [hvictims]
    exact .inl rfl

/-- The load of a present page right away. -/
theorem reports_present {d : Fin 4} (hs : Sound s) (ht : s.TableAt p d)
    (h2 : (s.entry p (vpage vaddr)).val = 2) : Reports s p vaddr (s.contents p vaddr) := by
  obtain ⟨i, hpfn, -⟩ := hs.coherent.entries.present p _ h2
  have hoff := offset_lt vaddr
  have hlt : (s.entry p (vpage vaddr)).pfn.toNat + offset vaddr < 64 := by omega
  have hload : (load p.val vaddr.val 0).run s.reset = _ := load_present ht h2 hlt
  refine ⟨[], s, ⟨.load p vaddr 0, _, _⟩, _, .refl, load_keeps ht h2, ⟨hload, rfl⟩, ⟨0, rfl⟩, ?_⟩
  rw [Machine.contents, pageByte, if_pos h2]
  exact List.mem_singleton.mpr rfl

/-! ## The map itself -/

/-- A page that has been mapped before comes out of `map` with its bytes, or empty if it was on
disk. -/
theorem map_page (hs : Sound s) (ho : Orderly s (.map p vaddr val))
    (hmapped : (s.entry p (vpage vaddr)).val ≠ 0) :
    Ends (map p.val vaddr.val val) s fun _ u => ∀ o < 16, u.pageByte p (vpage vaddr) o =
      if (s.entry p (vpage vaddr)).val = 1 then 0 else s.pageByte p (vpage vaddr) o := by
  cases hin : (s.hardware p).inmem with
  | memory =>
    obtain ⟨t, ht⟩ := hs.kept.owned.resident p hin
    apply wp_step (mapTable_memory ht vaddr.val)
    rcases hs.coherent.entries.range p (vpage vaddr) with h0 | h1 | h2
    · exact absurd h0 hmapped
    · have hval : (s.entry p (vpage vaddr)).val ≠ 2 := by
        rw [h1]
        decide
      have hobtain := obtainFrame_ends hs ht (ho.exists_data hval hin) (ho.found hval hin)
      apply wp_imp (mapPage_absent hobtain ht hval)
      intro _ _ hpost o hlt
      obtain ⟨v, i, hroom, rfl⟩ := hpost
      rw [if_pos h1]
      exact hroom.mapped_page (k := vpage vaddr) hlt
    · have hne : (s.entry p (vpage vaddr)).val ≠ 1 := by
        rw [h2]
        decide
      apply wp_imp (mapPage_present hs.kept.owned hs.disk hs.coherent ht h2)
      intro _ u hu o hlt
      rw [if_neg hne]
      exact hu.contents trivial p _ o hlt
  | file => exact absurd hin (ho.map_not_file hs)
  | unset => exact absurd (by rw [entry_unset hin]) hmapped

theorem Empties.iff_exists (h1 : (s.entry p (vpage vaddr)).val = 1) :
    Empties s (.map p vaddr val) ↔ ∃ w, vpage w = vpage vaddr ∧ s.contents p w ≠ 0 := by
  constructor
  · intro hempties
    obtain ⟨-, o, hne⟩ := hempties
    have hlt := o.isLt
    have hpage : vpage ⟨16 * (vpage vaddr).val + o.val, by omega⟩ = vpage vaddr := by
      apply Fin.ext
      show (16 * (vpage vaddr).val + o.val) / 16 = (vpage vaddr).val
      omega
    have hoffset : offset ⟨16 * (vpage vaddr).val + o.val, by omega⟩ = o.val := by
      show (16 * (vpage vaddr).val + o.val) % 16 = o.val
      omega
    refine ⟨_, hpage, ?_⟩
    rw [Machine.contents, hpage, hoffset]
    exact hne
  · intro hex
    obtain ⟨w, hpage, hne⟩ := hex
    refine ⟨h1, ⟨offset w, offset_lt w⟩, ?_⟩
    rw [Machine.contents, hpage] at hne
    exact hne

end Commands

/-! ## Runs -/

section Runs

variable {s u : Machine} {h : List Event} {p : Fin 4} {vaddr w : Fin 64} {val b : UInt8} {r : Int}

/-- In every run of guarded commands, a map of a page that has been mapped before sets its
protection and keeps its bytes exactly when it does not empty it; without the map a load could only
report the same bytes. -/
theorem remap_keeps_page_iff (hrun : memsim.RunIf (fun s e => Guarded s e.cmd) h s)
    (ho : Orderly s (.map p vaddr val)) (hmapped : (s.entry p (vpage vaddr)).val ≠ 0)
    (hmap : (exec (.map p vaddr val)).run s = .ok r u) :
    (PageKept s u p vaddr val ↔ ¬ Empties s (.map p vaddr val)) ∧
      ∀ w b, Reports s p w b → b = s.contents p w := by
  have hs := run_sound (fun _ _ hg => hg) hrun
  have hstep : memsim.step s ⟨.map p vaddr val, r, u.out⟩ u := ⟨hmap, rfl⟩
  have hu : Sound u := step_sound hs ho id hstep
  have hstage := (run_stage hrun.run).2
  have hsettles :
      wp (map p.val vaddr.val val) (fun _ u => ∃ d, Settled u p d vaddr val) _ s.reset :=
    map_settles hs.reset.disk reset_callsOk hstage
  obtain ⟨d, hsettled⟩ := wp_ok hsettles hmap
  have hpage := wp_ok (map_page hs.reset ho.reset hmapped) hmap
  have hcontents : ∀ w, vpage w = vpage vaddr → u.contents p w =
      if (s.entry p (vpage vaddr)).val = 1 then 0 else s.contents p w := by
    intro w hw
    rw [Machine.contents, hw, hpage _ (offset_lt w), Machine.contents, hw]
    rfl
  refine ⟨⟨fun hkept hempties => ?_, fun hempties => ⟨hsettled.prot, fun w hw b => ?_⟩⟩,
    fun w b hreports => hreports.contents hs⟩
  · -- the load right after the map reports 0
    obtain ⟨w, hw, hne⟩ := (Empties.iff_exists hempties.1).mp hempties
    have hreports := reports_present hu hsettled.table (hw ▸ hsettled.present)
    rw [hcontents w hw, if_pos hempties.1] at hreports
    exact hne ((hkept.bytes w hw 0).mp hreports).symm
  · have hsame : u.contents p w = s.contents p w := by
      rw [hcontents w hw]
      split_ifs with h1
      · rw [Machine.contents, hw]
        exact (page_zero hempties h1 _ (offset_lt w)).symm
      · rfl
    rw [← hsame]
    constructor
    · exact fun hreports => hreports.contents hu
    · intro hb
      rw [hb]
      exact reports_present hu hsettled.table (hw ▸ hsettled.present)

theorem protect_page : ∃ h s, memsim.RunIf (fun s e => Guarded s e.cmd) h s ∧
    h.map Event.cmd = [Cmd.map 0 0 1, .store 0 3 7].reverse ∧ (Orderly s (.map 0 0 5) ∧
      (s.entry 0 0).val ≠ 0 ∧ ¬ Empties s (.map 0 0 5) ∧ s.contents 0 3 = 7 ∧
      wp (exec (.map 0 0 5)) (fun _ _ => True) (fun _ _ => False) s) :=
  exists_run Guarded [] (by decide +kernel)

/-- A page in memory gets another protection. -/
theorem remap_keeps_page_present : ∃ h s r u,
    h.map Event.cmd = [Cmd.map 0 0 1, .store 0 3 7].reverse ∧
    memsim.RunIf (fun s e => Guarded s e.cmd) h s ∧ (exec (.map 0 0 5)).run s = .ok r u ∧
    PageKept s u 0 0 5 ∧ s.contents 0 3 = 7 := by
  obtain ⟨h, s, hrun, hcmds, ho, hmapped, hempties, hbyte, hmap⟩ := protect_page
  obtain ⟨r, u, hexec, -⟩ := ok_of_wp hmap
  exact ⟨h, s, r, u, hcmds, hrun, hexec,
    (remap_keeps_page_iff hrun ho hmapped hexec).1.mpr hempties, hbyte⟩

theorem storedPage_load : ∃ h s, memsim.RunIf (fun s e => Guarded s e.cmd) h s ∧
    h.map Event.cmd = storedPage.reverse ∧ (Orderly s (.map 0 16 1) ∧ (s.entry 0 1).val = 1 ∧
      Empties s (.map 0 16 1) ∧ KeepsPages s (.load 0 17 0) ∧
      wp (exec (.load 0 17 0)) (fun _ u => .value 17 200 ∈ u.out) (fun _ _ => False) s ∧
      wp (exec (.map 0 16 1)) (fun _ t => KeepsPages t (.load 0 17 0) ∧
        wp (exec (.load 0 17 0)) (fun _ u => .value 17 0 ∈ u.out) (fun _ _ => False) t)
        (fun _ _ => False) s) :=
  exists_run Guarded [] (by decide +kernel)

/-- The byte 200 of a page on disk; a load after the map reports 0. -/
theorem remap_empties_page : ∃ h s r u, memsim.Run h s ∧ h.map Event.cmd = storedPage.reverse ∧
    (s.entry 0 1).val = 1 ∧ (exec (.map 0 16 1)).run s = .ok r u ∧ Reports s 0 17 200 ∧
    Reports u 0 17 0 ∧ ¬ PageKept s u 0 16 1 := by
  obtain ⟨h, s, hrun, hcmds, ho, hval, hempties, hbefore, hload, hmap⟩ := storedPage_load
  obtain ⟨r, u, hexec, hafter, hagain⟩ := ok_of_wp hmap
  obtain ⟨r₁, v, hv, hvalue⟩ := ok_of_wp hload
  obtain ⟨r₂, w, hw, hzero⟩ := ok_of_wp hagain
  have hfirst : Reports s 0 17 200 :=
    ⟨[], s, ⟨.load 0 17 0, r₁, v.out⟩, v, .refl, hbefore, ⟨hv, rfl⟩, ⟨0, rfl⟩, hvalue⟩
  have hsecond : Reports u 0 17 0 :=
    ⟨[], u, ⟨.load 0 17 0, r₂, w.out⟩, w, .refl, hafter, ⟨hw, rfl⟩, ⟨0, rfl⟩, hzero⟩
  have hs := run_sound (fun _ _ hg => hg) hrun
  refine ⟨h, s, r, u, hrun.run, hcmds, hval, hexec, hfirst, hsecond, fun hkept => ?_⟩
  have hbyte := (hkept.bytes 17 rfl 0).mp hsecond
  rw [← hfirst.contents hs] at hbyte
  exact absurd hbyte (by decide)

end Runs

end Cs3013.Memory
