import Cs3013.Memory.Accesses
import Cs3013.Memory.FrameRuns

/-!
# Runs in which the page tables stay right

A command is `Orderly` when it takes no frame of a page table for a page and `removePage` finds
every page that it swaps out. After orderly commands the page tables fit the frames, so that an
index leaves the array, or a store hits a wrong byte, only where the code uses a line of the file
as an address.
-/
namespace Cs3013.Memory

open Cs3013.Library.Faulting Cs3013.Library.Transition Machine

/-- The command takes a frame for a page while, with its page table in memory, all four frames
hold page tables. -/
def TakesTable (s : Machine) (c : Cmd) : Prop :=
  c.takesPage s ∧ ∀ i, (s.toFrames.withTable c.pid).ispagetable i = true

/-- The frames whose pages the command swaps out. -/
def Cmd.victims (s : Machine) (c : Cmd) : List (Fin 4) :=
  match (s.hardware c.pid).inmem with
  | .memory => if c.takesPage s ∧ ∀ i, s.freelist i = false then [s.victim] else []
  | .file => [s.victim]
  | .unset => if c.takesPage s then s.roomVictims else []

def Orderly (s : Machine) (c : Cmd) : Prop :=
  ¬ TakesTable s c ∧ s.FoundAll (c.victims s)

/-- A store to a writeable page on disk, whose page table is in memory. -/
def StoresOnDisk (s : Machine) : Cmd → Prop
  | .store pid vaddr _ => (s.hardware pid).inmem = .memory ∧ (s.entry pid (vpage vaddr)).val = 1 ∧
      (s.entry pid (vpage vaddr)).prot = 1
  | _ => False

/-- Such a store, where the line number with the offset is an address outside of `mem`. -/
def StoresOutside (s : Machine) (c : Cmd) : Prop :=
  match c with
  | .store pid vaddr _ => StoresOnDisk s c ∧
      64 ≤ (s.entry pid (vpage vaddr)).pfn.toNat + offset vaddr
  | _ => False

/-- Such a store, where the line number with the offset is the address of another byte. -/
def Misplaces (s : Machine) (c : Cmd) : Prop :=
  match c with
  | .store pid vaddr val => StoresOnDisk s c ∧
      (s.entry pid (vpage vaddr)).pfn.toNat + offset vaddr < 64 ∧
      s.byte ((s.entry pid (vpage vaddr)).pfn.toNat + offset vaddr) ≠ val
  | _ => False

/-- A load from a page that was never mapped, with the page table in memory. -/
def LoadsUnmapped (s : Machine) : Cmd → Prop
  | .load pid vaddr _ => (s.hardware pid).inmem = .memory ∧ (s.entry pid (vpage vaddr)).val = 0
  | _ => False

instance (s : Machine) (c : Cmd) : Decidable (TakesTable s c) :=
  inferInstanceAs (Decidable (_ ∧ _))

instance (s : Machine) (c : Cmd) : Decidable (Orderly s c) :=
  inferInstanceAs (Decidable (_ ∧ _))

instance (s : Machine) (c : Cmd) : Decidable (StoresOnDisk s c) :=
  match c with
  | .store _ _ _ => inferInstanceAs (Decidable (_ ∧ _ ∧ _))
  | .map _ _ _ | .load _ _ _ => inferInstanceAs (Decidable False)

instance (s : Machine) (c : Cmd) : Decidable (Misplaces s c) :=
  match c with
  | .store _ _ _ => inferInstanceAs (Decidable (_ ∧ _ ∧ _))
  | .map _ _ _ | .load _ _ _ => inferInstanceAs (Decidable False)

instance (s : Machine) (c : Cmd) : Decidable (StoresOutside s c) :=
  match c with
  | .store _ _ _ => inferInstanceAs (Decidable (_ ∧ _))
  | .map _ _ _ | .load _ _ _ => inferInstanceAs (Decidable False)

instance (s : Machine) (c : Cmd) : Decidable (LoadsUnmapped s c) :=
  match c with
  | .load _ _ _ => inferInstanceAs (Decidable (_ ∧ _))
  | .map _ _ _ | .store _ _ _ => inferInstanceAs (Decidable False)

/-! ## One command -/

section Commands

variable {s : Machine} {p t : Fin 4} {vaddr : Fin 64} {val : UInt8}

/-- A frame is left for a page. -/
theorem Orderly.exists_data {c : Cmd} (ho : Orderly s c) (htakes : c.takesPage s)
    (hin : (s.hardware c.pid).inmem = .memory) : ∃ i, s.ispagetable i = false := by
  by_contra hnone
  simp only [not_exists, Bool.not_eq_false] at hnone
  apply ho.1
  rw [TakesTable, Frames.withTable_eq (by rw [hin]; decide)]
  exact ⟨htakes, hnone⟩

theorem victims_memory {c : Cmd} (hin : (s.hardware c.pid).inmem = .memory)
    (htakes : c.takesPage s) (hused : ∀ i, s.freelist i = false) :
    c.victims s = [s.victim] := by
  rw [Cmd.victims, hin]
  exact if_pos ⟨htakes, hused⟩

theorem Orderly.found {c : Cmd} (ho : Orderly s c) (htakes : c.takesPage s)
    (hin : (s.hardware c.pid).inmem = .memory) (hused : ∀ i, s.freelist i = false) :
    s.Found s.victim := by
  have hfound := ho.2
  rw [victims_memory hin htakes hused] at hfound
  exact hfound.1

theorem victims_file {c : Cmd} (hin : (s.hardware c.pid).inmem = .file) :
    c.victims s = [s.victim] := by
  rw [Cmd.victims, hin]

/-- Behind the page table of `p` there is no room for its pages. -/
theorem Orderly.not_takesPage {c : Cmd} (hs : Sound s) (ho : Orderly s c)
    (hin : (s.hardware c.pid).inmem = .file) : ¬ c.takesPage s := by
  intro htakes
  have hfull := Frames.Stage.full (.inl hs.kept) hin
  apply ho.1
  rw [TakesTable, Frames.withTable_file hin]
  exact ⟨htakes, (hfull.fetch hin).2⟩

/-- A map then takes a page, as none is present. -/
theorem Orderly.map_not_file (hs : Sound s) (ho : Orderly s (.map p vaddr val)) :
    (s.hardware p).inmem ≠ .file := by
  intro hin
  have htakes : Cmd.takesPage s (.map p vaddr val) :=
    hs.not_present (by rw [hin]; decide) (vpage vaddr)
  exact ho.not_takesPage hs hin htakes

theorem entry_unset (hin : (s.hardware p).inmem = .unset) (k : Fin 4) : (s.entry p k).val = 0 :=
  tableByte_unset hin _

/-- A page table in memory is left alone by the first part of `map`. -/
theorem mapTable_memory (ht : s.TableAt p t) (vaddr : Nat) :
    (mapTable p.val vaddr).run s = .ok () s := by
  have hpte : 0 ≤ 16 * (t.val : Int) + 4 * (vaddr / 16 : Nat) := by omega
  rw [mapTable, bind_of_ok (findpte_memory ht vaddr), if_neg (by omega),
    bind_of_ok (findpte_memory ht vaddr), if_neg (by omega)]
  rfl

/-- `map` with a page table in memory. -/
theorem map_memory (hs : Sound s) (ho : Orderly s (.map p vaddr val)) (ht : s.TableAt p t) :
    Ends (map p.val vaddr.val val) s fun _ u =>
      Carried (Fits s.linecount (Cmd.victims s (.map p vaddr val)) ∧
        ((s.entry p (vpage vaddr)).val = 1 → ∀ o < 16, s.pageByte p (vpage vaddr) o = 0)) s u := by
  have hin := ht.inmem
  apply wp_step (mapTable_memory ht vaddr.val)
  by_cases hval : (s.entry p (vpage vaddr)).val = 2
  · apply wp_imp (mapPage_present hs.kept.owned hs.disk hs.coherent ht hval)
    intro _ u hu
    exact ⟨hu.coherent, fun _ => hu.contents trivial, hu.disk, hu.quiet⟩
  · have hobtain := obtainFrame_ends hs ht (ho.exists_data hval hin) (ho.found hval hin)
    apply wp_imp (mapPage_absent hobtain ht hval)
    intro _ _ hpost
    obtain ⟨v, i, hroom, rfl⟩ := hpost
    apply Room.mapped (k := vpage vaddr) ⟨hroom.moved.mono ?_, hroom.owned, hroom.table,
      hroom.free⟩
    · intro hc
      rcases hs.coherent.entries.range p (vpage vaddr) with h0 | h1 | h2
      · exact fun o _ => pageByte_absent h0 o
      · exact hc.2 h1
      · exact absurd h2 hval
    · intro hc hused
      have hfits := hc.1
      rw [victims_memory (c := .map p vaddr val) hin hval hused] at hfits
      exact hfits.one

/-- `map` of the first page of a process makes a page table and finds a frame behind it. -/
theorem map_unset (hs : Sound s) (hcalls : s.CallsOk) (ho : Orderly s (.map p vaddr val))
    (hin : (s.hardware p).inmem = .unset) :
    Ends (map p.val vaddr.val val) s fun _ u =>
      Carried (Fits s.linecount (Cmd.victims s (.map p vaddr val))) s u := by
  have h0 := entry_unset hin (vpage vaddr)
  have htakes : Cmd.takesPage s (.map p vaddr val) := by
    show (s.entry p (vpage vaddr)).val ≠ 2
    rw [h0]
    decide
  have hvictims : Cmd.victims s (.map p vaddr val) = s.roomVictims := by
    rw [Cmd.victims, show (s.hardware (Cmd.map p vaddr val).pid).inmem = .unset from hin]
    exact if_pos htakes
  have hfound := ho.2
  rw [hvictims] at hfound ⊢
  refine wp_seq (mapTable_unset hs hcalls hin hfound vaddr.val) fun _ u hu => ?_
  obtain ⟨i, j, hroom⟩ := hu
  have hentry : (u.entry p (vpage vaddr)).val ≠ 2 := by
    rw [hroom.moved.entry p _ (by rw [h0]; decide), h0]
    decide
  have hobtain : Ends (obtainFrame p.val) u fun r w => ∃ v k,
      Room (Fits s.linecount s.roomVictims) s v p i k ∧ r = 16 * k.val ∧
        w = v.withFrames (v.toFrames.take k) := by
    have hpos : ¬ (16 * (j.val : Int)) < 0 := by omega
    apply wp_step (findfree_some hroom.free)
    rw [if_neg hpos]
    exact ⟨u, j, hroom, rfl, rfl⟩
  apply wp_imp (mapPage_absent hobtain hroom.table hentry)
  intro _ _ hpost
  obtain ⟨v, k, hroom', rfl⟩ := hpost
  exact hroom'.mapped (k := vpage vaddr) fun _ o _ => pageByte_absent h0 o

/-- `map` keeps the contents of all pages, unless it maps a page on disk that is not empty. -/
theorem map_carried (hs : Sound s) (hcalls : s.CallsOk)
    (ho : Orderly s (.map p vaddr val)) :
    Ends (map p.val vaddr.val val) s fun _ u =>
      Carried (Fits s.linecount (Cmd.victims s (.map p vaddr val)) ∧
        ((s.entry p (vpage vaddr)).val = 1 → ∀ o < 16, s.pageByte p (vpage vaddr) o = 0)) s u := by
  cases hin : (s.hardware p).inmem with
  | memory =>
    obtain ⟨t, ht⟩ := hs.kept.owned.resident p hin
    exact map_memory hs ho ht
  | file => exact absurd hin (ho.map_not_file hs)
  | unset =>
    apply wp_imp (map_unset hs hcalls ho hin)
    intro _ u hu
    exact ⟨hu.coherent, fun hc => hu.contents hc.1, hu.disk, hu.quiet⟩

/-- `load` keeps the contents of all pages and reports a byte of the page. -/
theorem load_carried (hs : Sound s) (ho : Orderly s (.load p vaddr val))
    (hmapped : ¬ LoadsUnmapped s (.load p vaddr val)) :
    Ends (load p.val vaddr.val val) s fun _ w => ∃ u,
      Carried (Fits s.linecount (Cmd.victims s (.load p vaddr val))) s u ∧
        (w = u ∨ w = u.printed
          (.value vaddr.val (u.pageByte p (vpage vaddr) (offset vaddr)))) := by
  cases hin : (s.hardware p).inmem with
  | memory =>
    obtain ⟨t, ht⟩ := hs.kept.owned.resident p hin
    rcases hs.coherent.entries.range p (vpage vaddr) with h0 | h1 | h2
    · exact absurd ⟨hin, h0⟩ hmapped
    · apply wp_imp (load_onDisk hs ht (ho.exists_data h1 hin) (ho.found h1 hin) h1)
      intro _ w hpost
      obtain ⟨u, hu, hw⟩ := hpost
      refine ⟨u, ⟨hu.coherent, fun hc => hu.contents fun hused => ?_, hu.disk, hu.quiet⟩, .inr hw⟩
      rw [victims_memory (c := .load p vaddr val) hin h1 hused] at hc
      exact hc.one
    · obtain ⟨d, hpfn, -⟩ := hs.coherent.entries.present p _ h2
      have hoff := offset_lt vaddr
      have hload : (load p.val vaddr.val val).run s = _ := load_present ht h2 (by omega)
      apply (wp_of_ok hload).mpr
      refine ⟨s, (Moved.refl hs.disk hs.coherent).carried, .inr ?_⟩
      rw [pageByte, if_pos h2]
  | file =>
    apply wp_step (findpte_file hin vaddr.val)
    rw [if_neg (by decide), if_pos rfl]
    have h0 : (s.entry p (vpage vaddr)).val = 0 :=
      hs.absent (by rw [hin]; decide) (ho.not_takesPage hs hin)
    have hfound := ho.2
    rw [victims_file hin] at hfound ⊢
    refine wp_seq (command_absent .l hs hin hfound.1 h0) fun _ u hu => ?_
    rw [wp_pure]
    exact ⟨u, ⟨hu.coherent, fun hc => hu.contents hc.one, hu.disk, hu.quiet⟩, .inl rfl⟩
  | unset =>
    apply wp_step (findpte_unset hin vaddr.val)
    rw [if_neg (by decide), if_neg (by decide), if_pos rfl]
    apply wp_step (say_ok _)
    exact ⟨_, ((Moved.refl hs.disk hs.coherent).printed (m := .loadSegfault vaddr.val)
      (by simp [Message.Access])).carried, .inl rfl⟩

/-- The same for every address: the load of a page that was never mapped reads outside of `mem`
and does not return. -/
theorem load_reported (hs : Sound s) (ho : Orderly s (.load p vaddr val)) :
    wp (load p.val vaddr.val val) (fun _ w => ∃ u,
      Carried (Fits s.linecount (Cmd.victims s (.load p vaddr val))) s u ∧
        (w = u ∨ w = u.printed
          (.value vaddr.val (u.pageByte p (vpage vaddr) (offset vaddr)))))
      (fun _ _ => True) s := by
  by_cases hmapped : LoadsUnmapped s (.load p vaddr val)
  · obtain ⟨t, ht⟩ := hs.kept.owned.resident p hmapped.1
    have hfault : (load p.val vaddr.val val).run s = _ := load_absent ht hmapped.2
    unfold wp
    rw [hfault]
    trivial
  · exact wp_forget (load_carried hs ho hmapped) fun _ _ hw => hw

/-- `store` for a page table that is not in memory stores nothing. -/
theorem store_away (hs : Sound s) (ho : Orderly s (.store p vaddr val))
    (hin : (s.hardware p).inmem ≠ .memory) :
    Ends (store p.val vaddr.val val) s fun _ u =>
      Carried (Fits s.linecount (Cmd.victims s (.store p vaddr val))) s u := by
  cases hin' : (s.hardware p).inmem with
  | memory => exact absurd hin' hin
  | file =>
    apply wp_step (findpte_file hin' vaddr.val)
    rw [if_neg (by decide), if_pos rfl]
    have h0 : (s.entry p (vpage vaddr)).val = 0 :=
      hs.absent hin fun h1 => ho.not_takesPage hs hin' ⟨hin', h1⟩
    have hfound := ho.2
    rw [victims_file hin'] at hfound ⊢
    refine wp_seq (command_absent .s hs hin' hfound.1 h0) fun _ u hu => ?_
    rw [wp_pure]
    exact ⟨hu.coherent, fun hc => hu.contents hc.one, hu.disk, hu.quiet⟩
  | unset =>
    apply wp_step (findpte_unset hin' vaddr.val)
    rw [if_neg (by decide), if_neg (by decide), if_pos rfl]
    apply wp_step (say_ok _)
    exact ((Moved.refl hs.disk hs.coherent).printed (m := .storeSegfault vaddr.val)
      (by simp [Message.Access])).carried

/-- `store` with the page table in memory: refused, carried out, or done at a line number. -/
theorem store_cases (hs : Sound s) (hp : s.TableAt p t) (vaddr : Fin 64) (val : UInt8) :
    (¬ StoresOnDisk s (.store p vaddr val) ∧ ∃ m : Message, ¬ m.Access ∧
      (store p.val vaddr.val val).run s = .ok 0 (s.printed m)) ∨
    (∃ d : Fin 4, (s.entry p (vpage vaddr)).val = 2 ∧ (s.entry p (vpage vaddr)).prot = 1 ∧
      (s.entry p (vpage vaddr)).pfn.toNat = 16 * d.val ∧ (store p.val vaddr.val val).run s =
        .ok 1 ((s.write (16 * d.val + offset vaddr) val).printed
          (.stored val (16 * d.val + offset vaddr : Nat)))) ∨
    StoresOnDisk s (.store p vaddr val) ∧ (store p.val vaddr.val val).run s =
      if (s.entry p (vpage vaddr)).pfn.toNat + offset vaddr < 64 then
        .ok 1 ((s.write ((s.entry p (vpage vaddr)).pfn.toNat + offset vaddr) val).printed
          (.stored val ((s.entry p (vpage vaddr)).pfn.toNat + offset vaddr : Nat)))
      else .error (.mem ((s.entry p (vpage vaddr)).pfn.toNat + offset vaddr : Nat)) s := by
  have hstore := store_memory hp vaddr val
  by_cases h0 : (s.entry p (vpage vaddr)).val = 0
  · left
    rw [if_pos h0] at hstore
    refine ⟨fun hon => ?_, _, by simp [Message.Access], hstore⟩
    cases h0.symm.trans hon.2.1
  · rw [if_neg h0] at hstore
    by_cases hprot : (s.entry p (vpage vaddr)).prot = 1
    · right
      rw [if_pos hprot] at hstore
      rcases hs.coherent.entries.range p (vpage vaddr) with h0' | h1 | h2
      · exact absurd h0' h0
      · right
        exact ⟨⟨hp.inmem, h1, hprot⟩, hstore⟩
      · left
        obtain ⟨d, hpfn, -⟩ := hs.coherent.entries.present p _ h2
        have hoff := offset_lt vaddr
        rw [hpfn, if_pos (by omega)] at hstore
        exact ⟨d, h2, hprot, hpfn, hstore⟩
    · left
      rw [if_neg hprot] at hstore
      exact ⟨fun hon => hprot hon.2.2, _, by simp [Message.Access], hstore⟩

/-- The tables survive a store that hits no wrong byte. -/
theorem store_coherent (hs : Sound s) (hp : s.TableAt p t)
    (hplace : ¬ Misplaces s (.store p vaddr val)) :
    wp (store p.val vaddr.val val) (fun _ u => Coherent u) (fun _ _ => True) s := by
  rcases store_cases hs hp vaddr val with
    ⟨-, m, hm, hrun⟩ | ⟨d, h2, -, hpfn, hrun⟩ | ⟨hon, hrun⟩
  · rw [wp_of_ok hrun]
    exact ((Moved.refl (c := True) hs.disk hs.coherent).printed hm).coherent
  · rw [wp_of_ok hrun]
    exact (write_present hs.kept.owned hs.coherent h2 hpfn (offset_lt vaddr) val).1.printed _
  · split_ifs at hrun with ha
    · rw [wp_of_ok hrun]
      have hsame : s.byte ((s.entry p (vpage vaddr)).pfn.toNat + offset vaddr) = val := by
        by_contra hne
        exact hplace ⟨hon, ha, hne⟩
      have hturn : Swapped True s
          (s.write ((s.entry p (vpage vaddr)).pfn.toNat + offset vaddr) val) := by
        refine .of_turn hs.coherent s.roundrobin rfl (fun b => ?_) rfl rfl
        rw [byte_write _ ha]
        split_ifs with hb
        · rw [hb, hsame]
        · rfl
      exact hturn.coherent.printed _
    · unfold wp
      rw [hrun]
      trivial

end Commands

/-! ## Runs -/

section Runs

variable {s u : Machine} {h : List Event} {p : Fin 4} {c : Cmd}

/-- The state in which a command starts. -/
def Machine.reset (s : Machine) : Machine := { s with out := [], calls := [] }

theorem exec_run (c : Cmd) : (exec c).run s = c.run.run s.reset := rfl

theorem Sound.reset (hs : Sound s) : Sound s.reset :=
  ⟨hs.kept, hs.disk.congr rfl rfl rfl, hs.coherent.entries, hs.coherent.vpn, hs.coherent.free⟩

theorem reset_callsOk : s.reset.CallsOk := by
  intro call hcall
  cases hcall

/-- What is printed and recorded does not matter to the searches. -/
theorem FoundAll.congr {ds : List (Fin 4)} : ∀ {s u : Machine}, u.toFrames = s.toFrames →
    u.mem = s.mem → u.linecount = s.linecount → u.swapspace = s.swapspace →
    s.FoundAll ds → u.FoundAll ds := by
  induction ds with
  | nil =>
    intro _ _ _ _ _ _ _
    trivial
  | cons d ds ih =>
    intro s u hframes hmem hlines htext hfound
    obtain ⟨f, mem, lines, text, _, _, _⟩ := s
    obtain ⟨f', mem', lines', text', _, _, _⟩ := u
    obtain rfl : f' = f := hframes
    obtain rfl : mem' = mem := hmem
    obtain rfl : lines' = lines := hlines
    obtain rfl : text' = text := htext
    exact ⟨hfound.1, fun q t hq ht => ih (by rfl) (by rfl) (by rfl) (by rfl) (hfound.2 q t hq ht)⟩

theorem Orderly.reset (ho : Orderly s c) : Orderly s.reset c :=
  ⟨ho.1, FoundAll.congr (s := s) rfl rfl rfl rfl ho.2⟩

theorem startup_coherent (stack : List Page) : Coherent (startup stack) := by
  have hval : ∀ p k, ((startup stack).entry p k).val = 0 := fun p k => entry_unset rfl k
  refine ⟨⟨fun p k => .inl (hval p k), fun p k _ => ?_, fun p k h1 => ?_,
    fun p k h2 => ?_, fun p k j h2 => ?_⟩, fun p k hset => absurd rfl hset, fun d _ o ho => ?_⟩
  · exact tableByte_unset (p := p) (s := startup stack) rfl (4 * k.val + 2)
  · rw [hval] at h1
    cases h1
  · rw [hval] at h2
    cases h2
  · rw [hval] at h2
    cases h2
  · show (Vector.replicate 64 (0 : UInt8)).toList.getD (16 * d.val + o) 0 = 0
    rw [Vector.toList_replicate, List.getD_eq_getElem?_getD, List.getElem?_replicate,
      if_pos (by omega)]
    rfl

/-- The tables after an orderly command that hits no wrong byte. -/
theorem exec_coherent (hs : Sound s) (ho : Orderly s c) (hplace : ¬ Misplaces s c) :
    wp (exec c) (fun _ u => Coherent u) (fun _ _ => True) s := by
  apply wp_congr (exec_run c)
  cases c with
  | map p vaddr val =>
    exact wp_forget (map_carried hs.reset reset_callsOk ho.reset) fun _ _ hu => hu.coherent
  | load p vaddr val =>
    apply wp_forget (load_reported hs.reset ho.reset)
    intro _ w hpost
    obtain ⟨u, hu, rfl | rfl⟩ := hpost
    · exact hu.coherent
    · exact ⟨hu.coherent.entries, hu.coherent.vpn, hu.coherent.free⟩
  | store p vaddr val =>
    by_cases hin : (s.hardware p).inmem = .memory
    · obtain ⟨t, ht⟩ := hs.kept.owned.resident p hin
      exact store_coherent hs.reset ht hplace
    · exact wp_forget (store_away hs.reset ho.reset hin) fun _ _ hu => hu.coherent

theorem Orderly.not_robs (ho : Orderly s c) : ¬ Robs s c :=
  fun hrobs => ho.1 ⟨hrobs.1, hrobs.2.1⟩

theorem step_sound {e : Event} (hs : Sound s) (ho : Orderly s e.cmd)
    (hplace : ¬ Misplaces s e.cmd) (hstep : memsim.step s e u) : Sound u := by
  obtain ⟨hout, hdisk⟩ := step_outcome hs.disk (.inl hs.kept) hstep
  exact ⟨hout.kept hs.kept ho.not_robs, hdisk, wp_ok (exec_coherent hs ho hplace) hstep.1⟩

/-- Every run of such commands keeps the tables right. -/
theorem run_sound {ok : Machine → Event → Prop}
    (hok : ∀ s e, ok s e → Orderly s e.cmd ∧ ¬ Misplaces s e.cmd) (hrun : memsim.RunIf ok h s) :
    Sound s := by
  apply hrun.stateInvariant
  · intro _ hinit
    obtain ⟨stack, rfl⟩ := hinit
    exact ⟨startup_kept stack, startup_diskOk stack, startup_coherent stack⟩
  · intro t e v ht he hstep
    exact step_sound ht (hok t e he).1 (hok t e he).2 hstep

end Runs

end Cs3013.Memory
