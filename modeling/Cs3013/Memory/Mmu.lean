import Cs3013.Library.Simulation
import Cs3013.Memory.Contents
import Cs3013.Memory.Pace

/-!
# The simulation as a memory unit

Behind `map`, `store` and `load` stands a unit without frames, page tables and a swap file: for each
page of a process it knows the protection that the last `map` has given, and for each address a
byte. The commands that keep the contents of all pages answer as this unit does, in every run and
wherever the pages and the page tables have gone.
-/
namespace Cs3013.Memory

open Cs3013.Library.Faulting Cs3013.Library.Simulation Cs3013.Library.Transition Machine

/-- The protections by process and page, `none` before the first map. -/
abbrev Protections := Fin 4 → Fin 4 → Option UInt8

structure Mmu where
  prot : Protections
  bytes : Contents

/-- What a process learns from a command. -/
inductive Reply where
  | stored (val : UInt8)
  | value (vaddr : Nat) (val : UInt8)
  deriving DecidableEq, Repr

/-- The messages that report an access, without the physical address. -/
def Message.reply : Message → Option Reply
  | .stored val _ => some (.stored val)
  | .value vaddr val => some (.value vaddr val)
  | _ => none

def Protections.set (prot : Protections) (p k : Fin 4) (val : UInt8) : Protections :=
  fun q j => if q = p ∧ j = k then some val else prot q j

/-- A map sets the protection, a store writes to a page with protection 1, and a load reads from a
page that has been mapped. -/
def Mmu.exec (m : Mmu) : Cmd → Mmu × List Reply
  | .map pid vaddr val => (⟨m.prot.set pid (vpage vaddr) val, m.bytes⟩, [])
  | .store pid vaddr val =>
    if m.prot pid (vpage vaddr) = some 1 then
      (⟨m.prot, fun q w => if q = pid ∧ w = vaddr then val else m.bytes q w⟩, [.stored val])
    else (m, [])
  | .load pid vaddr _ =>
    if m.prot pid (vpage vaddr) = none then (m, [])
    else (m, [.value vaddr.val (m.bytes pid vaddr)])

def mmu : System Mmu (Cmd × List Reply) where
  init m := m = ⟨fun _ _ => none, fun _ _ => 0⟩
  step m x m' := m.exec x.1 = (m', x.2)

def Machine.replies (s : Machine) : List Reply := s.out.filterMap Message.reply

/-- The protection of a page by its entry. -/
def Machine.prot (s : Machine) : Protections := fun p k =>
  if (s.entry p k).val = 0 then none else some (s.entry p k).prot

def Machine.mmu (s : Machine) : Mmu := ⟨s.prot, s.contents⟩

/-! ## Protections -/

section Protections

variable {c : Prop} {s u v : Machine} {p t i k : Fin 4} {x : Entry} {val : UInt8}

theorem prot_congr (h : u.entry = s.entry) : u.prot = s.prot := by
  unfold Machine.prot
  rw [h]

theorem prot_some (h : (s.entry p k).val ≠ 0) : s.prot p k = some (s.entry p k).prot := if_neg h

theorem prot_none (h : (s.entry p k).val = 0) : s.prot p k = none := if_pos h

/-- Moving pages and tables around changes no protection. -/
theorem Swapped.protections (h : Swapped c s u) : u.prot = s.prot := by
  funext p k
  by_cases h2 : (s.entry p k).val = 2
  · rw [prot_some (h.present p k h2), prot_some (by rw [h2]; decide), h.prot]
  · rw [Machine.prot, Machine.prot, h.entry p k h2]

/-- A new entry that is present or on disk. -/
theorem prot_set (h : u.entry = s.entry.set p k x) (hx : x.val ≠ 0) :
    u.prot = s.prot.set p k x.prot := by
  funext q j
  rw [Machine.prot, h, Protections.set]
  by_cases hqj : q = p ∧ j = k
  · obtain ⟨rfl, rfl⟩ := hqj
    rw [Entries.set_self, if_neg hx, if_pos ⟨rfl, rfl⟩]
  · rw [Entries.set_other hqj, if_neg hqj]
    rfl

/-- An entry with its old protection. -/
theorem prot_set_same (h : u.entry = s.entry.set p k x) (hx : x.val ≠ 0)
    (hval : (s.entry p k).val ≠ 0) (hprot : x.prot = (s.entry p k).prot) : u.prot = s.prot := by
  rw [prot_set h hx]
  funext q j
  rw [Protections.set]
  split_ifs with hqj
  · obtain ⟨rfl, rfl⟩ := hqj
    rw [prot_some hval, hprot]
  · rfl

/-- The byte of the protection in the table. -/
theorem prot_write (howned : s.Owned) (hp : s.TableAt p t) (hval : (s.entry p k).val ≠ 0) :
    (s.write (16 * t.val + 4 * k.val + 2) val).prot = s.prot.set p k val := by
  have hbytes : ∀ q o, o < 16 → (s.write (16 * t.val + 4 * k.val + 2) val).tableByte q o =
      if q = p ∧ o = 4 * k.val + 2 then val else s.tableByte q o :=
    fun q o ho => tableByte_write howned hp (j := 4 * k.val + 2) (by omega) (by omega) _ ho
  have hpfn : ∀ q (j : Fin 4), ¬ (q = p ∧ 4 * j.val + 3 = 4 * k.val + 2) := fun _ _ h => by omega
  funext q j
  have hflag : ((s.write (16 * t.val + 4 * k.val + 2) val).entry q j).val = (s.entry q j).val :=
    (hbytes q _ (by omega)).trans (if_neg (hpfn q j))
  have hprot : ((s.write (16 * t.val + 4 * k.val + 2) val).entry q j).prot =
      if q = p ∧ 4 * j.val + 2 = 4 * k.val + 2 then val else (s.entry q j).prot :=
    hbytes q _ (by omega)
  rw [Machine.prot, hflag, hprot, Protections.set]
  by_cases hqj : q = p ∧ j = k
  · obtain ⟨rfl, rfl⟩ := hqj
    rw [if_neg hval, if_pos ⟨rfl, rfl⟩, if_pos ⟨rfl, rfl⟩]
  · have hbyte : ¬ (q = p ∧ 4 * j.val + 2 = 4 * k.val + 2) := fun h => hqj ⟨h.1, by omega⟩
    rw [if_neg hqj, if_neg hbyte]
    rfl

/-- A byte of a page that is present. -/
theorem prot_write_data (howned : s.Owned) (h : Coherent s) (h2 : (s.entry p k).val = 2)
    (hpfn : (s.entry p k).pfn.toNat = 16 * i.val) {o : Nat} (ho : o < 16) :
    (s.write (16 * i.val + o) val).prot = s.prot := by
  obtain ⟨-, hflag⟩ := h.entries.present_at h2 hpfn
  apply prot_congr
  exact entry_congr fun q o' ho' =>
    tableByte_write_data howned (howned.not_table hflag) rfl ho val ho'

theorem quiet_replies (h : Quiet s.reset u) : u.replies = [] := by
  apply List.filterMap_eq_nil_iff.mpr
  intro m hm
  cases m with
  | stored val paddr => cases h (.stored val paddr) trivial hm
  | value vaddr val => cases h (.value vaddr val) trivial hm
  | _ => rfl

end Protections

/-! ## map -/

section Maps

variable {c : Prop} {s u v : Machine} {p t i k : Fin 4} {vaddr : Fin 64} {val : UInt8}

theorem Protections.set_self {prot : Protections} (h : prot p k = some val) :
    prot.set p k val = prot := by
  funext q j
  rw [Protections.set]
  split_ifs with hqj
  · obtain ⟨rfl, rfl⟩ := hqj
    exact h.symm
  · rfl

theorem Room.mapped_prot (h : Room c s v p t i) :
    (v.mappedPage p t i k.val val).prot = s.prot.set p k val := by
  have hfree := Frames.free_of_find?_some h.free
  have hgives := mappedPage_gives h.owned h.table hfree (k := k) h.moved.coherent val
  rw [prot_set hgives.rewrites.entry (show (2 : UInt8) ≠ 0 by decide), h.moved.protections]

/-- The frame of a room is the one that `map` takes. -/
theorem Room.obtains (h : Room c s v p t i) : Ends (obtainFrame p.val) v fun r w => ∃ u k,
    Room c s u p t k ∧ r = 16 * k.val ∧ w = u.withFrames (u.toFrames.take k) := by
  have hpos : ¬ (16 * (i.val : Int)) < 0 := by omega
  apply wp_step (findfree_some h.free)
  rw [if_neg hpos]
  exact ⟨v, i, h, rfl, rfl⟩

theorem victims_unset {c : Cmd} (hin : (s.hardware c.pid).inmem = .unset) (htakes : c.takesPage s) :
    c.victims s = s.roomVictims := by
  rw [Cmd.victims, hin]
  exact if_pos htakes

theorem mapPage_prot (howned : s.Owned) (hp : s.TableAt p t)
    (hval : (s.entry p (vpage vaddr)).val = 2) :
    Ends (mapPage p.val vaddr.val val) s fun _ u => u.prot = s.prot.set p (vpage vaddr) val := by
  have hne : (s.entry p (vpage vaddr)).val ≠ 0 := by
    rw [hval]
    decide
  apply wp_step (findpte_memory hp vaddr.val)
  apply wp_step (peek_val hp vaddr)
  rw [if_pos hval]
  apply wp_step (peek_prot hp vaddr)
  by_cases hprot : (s.entry p (vpage vaddr)).prot = val
  · rw [if_pos hprot]
    apply wp_step (say_ok _)
    have hsame : s.prot p (vpage vaddr) = some val := hprot ▸ prot_some hne
    exact (Protections.set_self hsame).symm
  · rw [if_neg hprot]
    apply wp_step (say_ok _)
    apply wp_step (poke_eq (a := 16 * t.val + 4 * (vaddr.val / 16) + 2) (by push_cast; rfl)
      (by omega) _)
    exact prot_write (s := s.printed .altered) (k := vpage vaddr) howned hp hne

/-- `map` gives the page its protection, whether it alters the entry or takes a frame. -/
theorem map_prot (hs : Sound s) (hcalls : s.CallsOk) (ho : Orderly s (.map p vaddr val)) :
    Ends (map p.val vaddr.val val) s fun _ u => u.prot = s.prot.set p (vpage vaddr) val := by
  cases hin : (s.hardware p).inmem with
  | memory =>
    obtain ⟨t, ht⟩ := hs.kept.owned.resident p hin
    apply wp_step (mapTable_memory ht vaddr.val)
    by_cases hval : (s.entry p (vpage vaddr)).val = 2
    · exact mapPage_prot hs.kept.owned ht hval
    · have hobtain := obtainFrame_ends hs ht (ho.exists_data hval hin) (ho.found hval hin)
      apply wp_imp (mapPage_absent hobtain ht hval)
      intro _ _ hpost
      obtain ⟨v, i, hroom, rfl⟩ := hpost
      exact hroom.mapped_prot (k := vpage vaddr)
  | file => exact absurd hin (ho.map_not_file hs)
  | unset =>
    have h0 := entry_unset hin (vpage vaddr)
    have htakes : Cmd.takesPage s (.map p vaddr val) := by
      show (s.entry p (vpage vaddr)).val ≠ 2
      rw [h0]
      decide
    have hfound := ho.2
    rw [victims_unset hin htakes] at hfound
    refine wp_seq (mapTable_unset hs hcalls hin hfound vaddr.val) fun _ u hu => ?_
    obtain ⟨i, j, hroom⟩ := hu
    have hentry : (u.entry p (vpage vaddr)).val ≠ 2 := by
      rw [hroom.moved.entry p _ (by rw [h0]; decide), h0]
      decide
    apply wp_imp (mapPage_absent hroom.obtains hroom.table hentry)
    intro _ _ hpost
    obtain ⟨v, k, hroom', rfl⟩ := hpost
    exact hroom'.mapped_prot (k := vpage vaddr)

end Maps

/-! ## load -/

section Loads

variable {c : Prop} {s u v : Machine} {p t i k : Fin 4} {vaddr : Fin 64} {val : UInt8}

/-- What follows `loadPage` in `load` only reads. -/
theorem report_preserves (pid : Int) (vaddr : Nat) : Preserves Fault.Real Machine.prot (do
    let paddr ← convert vaddr pid
    if paddr > 0 then
      say (.value vaddr (← peek paddr))
      return 1
    else
      return 0 : M Int) := by
  have hsay (m : Message) : Preserves Fault.Real Machine.prot (say m) := fun _ => rfl
  refine (convert_preserves pid vaddr).bind fun _ => .ite ?_ (.pure _)
  exact (peek_preserves _).bind fun _ => (hsay _).bind fun _ => .pure _

theorem Room.loaded_prot (h : Room c s v p t i) (hval : (s.entry p (vpage vaddr)).val = 1) :
    wp (do
      let _ ← loadPage p.val vaddr.val
      let paddr ← convert vaddr.val p.val
      if paddr > 0 then
        say (.value vaddr.val (← peek paddr))
        return 1
      else
        return 0 : M Int) (fun _ w => w.prot = s.prot) (fun _ _ => True) v := by
  have hfree := Frames.free_of_find?_some h.free
  have hentry := h.moved.entry p (vpage vaddr) (by rw [hval]; decide)
  have hone : (v.entry p (vpage vaddr)).val = 1 := by rw [hentry, hval]
  have hline := h.moved.coherent.entries.onDisk p (vpage vaddr) hone
  have hpfn : (v.byte (16 * t.val + 4 * (vaddr.val / 16) + 1)).toNat =
      (v.entry p (vpage vaddr)).pfn.toNat := by
    rw [Nat.add_assoc, ← tableByte_memory h.table]
    rfl
  have hgives := loadedPage_gives h.owned h.table hfree (k := vpage vaddr)
    (v.entry p (vpage vaddr)).pfn.toNat
  have hsame := prot_set_same hgives.rewrites.entry (show (2 : UInt8) ≠ 0 by decide)
    (by rw [hone]; decide) rfl
  apply wp_step (loadPage_ok h.table vaddr.isLt hpfn hline h.moved.disk.file h.free)
  exact (report_preserves p.val vaddr.val).wp
    (fun _ _ hw => hw.trans (hsame.trans h.moved.protections)) fun _ _ _ _ => trivial

/-- A load of a page on disk. -/
theorem load_prot (hs : Sound s) (hp : s.TableAt p t) (hflag : ∃ i, s.ispagetable i = false)
    (hfound : (∀ i, s.freelist i = false) → s.Found s.victim)
    (hval : (s.entry p (vpage vaddr)).val = 1) :
    wp (load p.val vaddr.val val) (fun _ w => w.prot = s.prot) (fun _ _ => True) s := by
  have hpte : (16 * (t.val : Int) + 4 * (vaddr.val / 16 : Nat)) ≥ 0 := by omega
  apply wp_step (findpte_memory hp vaddr.val)
  rw [if_pos hpte]
  apply wp_step (peek_val hp vaddr)
  rw [if_pos hval]
  apply wp_step get_run
  cases hfind : frameList.find? s.freelist with
  | some i =>
    rw [if_pos (any_of_find?_some hfind)]
    exact (Room.there (c := True) hs hp hfind).loaded_prot hval
  | none =>
    have hused := Frames.used_of_find?_none hfind
    obtain ⟨i, hi⟩ := hflag
    have hvictim := Frames.victim_not_flagged hi
    rw [if_neg (not_any_of_used hused)]
    refine wp_seq (wp_forget (freespace_ends hs hused hvictim (hfound hused) p) fun _ _ h => h)
      fun _ u hu => ?_
    obtain ⟨hframes, hmoved⟩ := hu
    exact (Room.made hs hp hused hvictim hframes hmoved).loaded_prot hval

/-- The page table comes back, and the access ends there. -/
theorem command_prot (access : Access) (hs : Sound s) (hin : (s.hardware p).inmem = .file)
    (hfound : s.Found s.victim) (h0 : (s.entry p (vpage vaddr)).val = 0) :
    wp (command access p.val vaddr.val val) (fun _ u => u.prot = s.prot) (fun _ _ => True) s := by
  have hfull := Frames.Stage.full (.inl hs.kept) hin
  have hspace : ((s.freeCount : Nat) : Int) = 0 := by
    rw [Frames.freeCount_eq_zero hfull.used]
    rfl
  have hfetch : Ends (fetch p.val vaddr.val) s fun _ u =>
      u.TableAt p s.victim ∧ Moved (s.linecount < 256) s u := by
    apply wp_step get_run
    apply wp_step (hardwareOf_ok p)
    rw [hspace, if_pos hin, if_pos (by decide), ← bind_assoc]
    refine wp_seq (fetchTable_ends hs hin hfound) fun _ u hu => ?_
    have hentry := hu.2.entry p (vpage vaddr) (by rw [h0]; decide)
    apply wp_step (findpte_memory hu.1 vaddr.val)
    apply wp_step (peek_val hu.1 vaddr)
    rw [hentry, h0, if_neg (by decide)]
    exact hu
  refine wp_seq (wp_forget hfetch fun _ _ h => h) fun _ u hu => ?_
  obtain ⟨htable, hmoved⟩ := hu
  have hentry := hmoved.entry p (vpage vaddr) (by rw [h0]; decide)
  cases access with
  | s =>
    have hprot : (u.entry p (vpage vaddr)).prot = 0 := by
      rw [hentry]
      exact hs.coherent.entries.absent p _ h0
    apply wp_step (findpte_memory htable vaddr.val)
    apply wp_step (peek_prot htable vaddr)
    rw [hprot, if_neg (by decide)]
    exact hmoved.protections
  | l =>
    apply wp_step (convert_entry htable vaddr)
    rw [hentry, if_pos h0, if_neg (by decide)]
    exact hmoved.protections

/-- A load leaves the protections alone and reports a value exactly for a page that has been
mapped. -/
theorem load_answers (hs : Sound s) (ho : Orderly s (.load p vaddr val)) :
    wp (load p.val vaddr.val val) (fun _ w => w.prot = s.prot ∧
      (s.prot p (vpage vaddr) = none ∧ Quiet s w ∨
        s.prot p (vpage vaddr) ≠ none ∧ ∃ b, .value vaddr.val b ∈ w.out)) (fun _ _ => True) s := by
  cases hin : (s.hardware p).inmem with
  | memory =>
    obtain ⟨t, ht⟩ := hs.kept.owned.resident p hin
    rcases hs.coherent.entries.range p (vpage vaddr) with h0 | h1 | h2
    · have hfault : (load p.val vaddr.val val).run s = _ := load_absent ht h0
      unfold wp
      rw [hfault]
      trivial
    · have hdata := ho.exists_data h1 hin
      have hfound := ho.found h1 hin
      have hmapped : s.prot p (vpage vaddr) ≠ none := by
        rw [prot_some (by rw [h1]; decide)]
        exact Option.some_ne_none _
      apply wp_forget (wp_and (load_prot hs ht hdata hfound h1) (load_onDisk hs ht hdata hfound h1))
      intro _ w hpost
      obtain ⟨hprot, u, -, rfl⟩ := hpost
      refine ⟨hprot, .inr ⟨hmapped, u.pageByte p (vpage vaddr) (offset vaddr), ?_⟩⟩
      rw [printed_out]
      exact List.mem_append_right _ (List.mem_singleton.mpr rfl)
    · obtain ⟨d, hpfn, -⟩ := hs.coherent.entries.present p _ h2
      have hoff := offset_lt vaddr
      have hload : (load p.val vaddr.val val).run s = _ := load_present ht h2 (by omega)
      have hmapped : s.prot p (vpage vaddr) ≠ none := by
        rw [prot_some (by rw [h2]; decide)]
        exact Option.some_ne_none _
      apply (wp_of_ok hload).mpr
      refine ⟨rfl, .inr ⟨hmapped, s.byte ((s.entry p (vpage vaddr)).pfn.toNat + offset vaddr), ?_⟩⟩
      rw [printed_out]
      exact List.mem_append_right _ (List.mem_singleton.mpr rfl)
  | file =>
    have h0 : (s.entry p (vpage vaddr)).val = 0 :=
      hs.absent (by rw [hin]; decide) (ho.not_takesPage hs hin)
    have hfound := ho.2
    rw [victims_file hin] at hfound
    apply wp_step (findpte_file hin vaddr.val)
    rw [if_neg (by decide), if_pos rfl]
    refine wp_seq (wp_forget (wp_and (command_prot .l hs hin hfound.1 h0)
      (command_absent .l hs hin hfound.1 h0)) fun _ _ h => h) fun _ u hu => ?_
    exact ⟨hu.1, .inl ⟨prot_none h0, hu.2.quiet⟩⟩
  | unset =>
    have h0 := entry_unset hin (vpage vaddr)
    apply wp_step (findpte_unset hin vaddr.val)
    rw [if_neg (by decide), if_neg (by decide), if_pos rfl]
    apply wp_step (say_ok _)
    exact ⟨rfl, .inl ⟨prot_none h0,
      .of_out (l := [.loadSegfault vaddr.val]) rfl (by simp [Message.Access])⟩⟩

end Loads

/-! ## store -/

section Stores

variable {s : Machine} {p t : Fin 4} {vaddr : Fin 64} {val : UInt8}

/-- A store is carried out exactly for a page with protection 1. -/
theorem store_answers (hs : Sound s) (ho : Orderly s (.store p vaddr val))
    (hdisk : ¬ StoresOnDisk s (.store p vaddr val)) :
    wp (store p.val vaddr.val val) (fun _ w => w.prot = s.prot ∧
      (s.prot p (vpage vaddr) ≠ some 1 ∧ Quiet s w ∨
        s.prot p (vpage vaddr) = some 1 ∧ ∃ paddr, w.out = s.out ++ [.stored val paddr]))
      (fun _ _ => True) s := by
  by_cases hin : (s.hardware p).inmem = .memory
  · obtain ⟨t, ht⟩ := hs.kept.owned.resident p hin
    have hrun := store_memory ht vaddr val
    by_cases h0 : (s.entry p (vpage vaddr)).val = 0
    · rw [if_pos h0] at hrun
      apply (wp_of_ok hrun).mpr
      refine ⟨rfl, .inl ⟨?_, .of_out (l := [.storeSegfault vaddr.val]) rfl ?_⟩⟩
      · rw [prot_none h0]
        exact (Option.some_ne_none _).symm
      · simp [Message.Access]
    · rw [if_neg h0] at hrun
      by_cases hprot : (s.entry p (vpage vaddr)).prot = 1
      · have h2 : (s.entry p (vpage vaddr)).val = 2 := by
          rcases hs.coherent.entries.range p (vpage vaddr) with h | h1 | h2
          · exact absurd h h0
          · exact absurd ⟨hin, h1, hprot⟩ hdisk
          · exact h2
        obtain ⟨d, hpfn, -⟩ := hs.coherent.entries.present p _ h2
        have hoff := offset_lt vaddr
        rw [if_pos hprot, hpfn, if_pos (by omega)] at hrun
        apply (wp_of_ok hrun).mpr
        refine ⟨prot_write_data hs.kept.owned hs.coherent h2 hpfn hoff, .inr ⟨?_, _, rfl⟩⟩
        rw [prot_some h0, hprot]
      · rw [if_neg hprot] at hrun
        apply (wp_of_ok hrun).mpr
        refine ⟨rfl, .inl ⟨?_, .of_out (l := [.notWriteable vaddr.val]) rfl ?_⟩⟩
        · rw [prot_some h0]
          exact fun h => hprot (Option.some_inj.mp h)
        · simp [Message.Access]
  · have h0 : (s.entry p (vpage vaddr)).val = 0 := by
      cases hin' : (s.hardware p).inmem with
      | memory => exact absurd hin' hin
      | file => exact hs.absent hin fun h1 => ho.not_takesPage hs hin' ⟨hin', h1⟩
      | unset => exact entry_unset hin' _
    have hnone : s.prot p (vpage vaddr) ≠ some 1 := by
      rw [prot_none h0]
      exact (Option.some_ne_none _).symm
    have hprot : wp (store p.val vaddr.val val) (fun _ w => w.prot = s.prot) (fun _ _ => True)
        s := by
      cases hin' : (s.hardware p).inmem with
      | memory => exact absurd hin' hin
      | file =>
        have hfound := ho.2
        rw [victims_file hin'] at hfound
        apply wp_step (findpte_file hin' vaddr.val)
        rw [if_neg (by decide), if_pos rfl]
        exact wp_seq (command_prot .s hs hin' hfound.1 h0) fun _ _ hu => hu
      | unset =>
        apply wp_step (findpte_unset hin' vaddr.val)
        rw [if_neg (by decide), if_neg (by decide), if_pos rfl]
        apply wp_step (say_ok _)
        exact rfl
    apply wp_forget (wp_and hprot (store_away hs ho hin))
    intro _ w hw
    exact ⟨hw.1, .inl ⟨hnone, hw.2.quiet⟩⟩

end Stores

/-! ## Commands and runs -/

section Answers

variable {s u : Machine} {c : Cmd} {h : List Event} {m : Mmu} {p : Fin 4} {vaddr : Fin 64}
  {val : UInt8}

theorem Mmu.exec_store (h : m.prot p (vpage vaddr) = some 1) : m.exec (.store p vaddr val) =
    (⟨m.prot, fun q w => if q = p ∧ w = vaddr then val else m.bytes q w⟩, [.stored val]) :=
  if_pos h

theorem Mmu.exec_store_refused (h : m.prot p (vpage vaddr) ≠ some 1) :
    m.exec (.store p vaddr val) = (m, []) := if_neg h

theorem Mmu.exec_load (h : m.prot p (vpage vaddr) ≠ none) :
    m.exec (.load p vaddr val) = (m, [.value vaddr.val (m.bytes p vaddr)]) := if_neg h

theorem Mmu.exec_load_refused (h : m.prot p (vpage vaddr) = none) :
    m.exec (.load p vaddr val) = (m, []) := if_pos h

/-- A command that keeps the contents answers as the unit does. -/
theorem exec_answers (hs : Sound s) (hk : Keeps s c) :
    wp (exec c) (fun _ u => u.prot = (s.mmu.exec c).1.prot ∧ u.replies = (s.mmu.exec c).2)
      (fun _ _ => True) s := by
  obtain ⟨ho, hdisk, -, hfits⟩ := hk
  apply wp_congr (exec_run c)
  cases c with
  | map p vaddr val =>
    apply wp_forget (wp_and (map_prot hs.reset reset_callsOk ho.reset)
      (map_carried hs.reset reset_callsOk ho.reset))
    intro _ u hu
    exact ⟨hu.1, quiet_replies hu.2.quiet⟩
  | store p vaddr val =>
    apply wp_forget (store_answers hs.reset ho.reset hdisk)
    intro _ u hu
    obtain ⟨hprot, ⟨hnot, hquiet⟩ | ⟨hwrites, paddr, hout⟩⟩ := hu
    · rw [Mmu.exec_store_refused (m := s.mmu) hnot]
      exact ⟨hprot, quiet_replies hquiet⟩
    · rw [Mmu.exec_store (m := s.mmu) hwrites]
      refine ⟨hprot, ?_⟩
      rw [Machine.replies, hout]
      rfl
  | load p vaddr val =>
    apply wp_forget (wp_and (load_answers hs.reset ho.reset) (load_reported hs.reset ho.reset))
    intro _ w hw
    obtain ⟨⟨hprot, hreply⟩, u, hu, hwu⟩ := hw
    have hquiet := quiet_replies hu.quiet
    rcases hreply with ⟨hnone, hw⟩ | ⟨hmapped, b, hvalue⟩
    · rw [Mmu.exec_load_refused (m := s.mmu) hnone]
      exact ⟨hprot, quiet_replies hw⟩
    · rw [Mmu.exec_load (m := s.mmu) hmapped]
      refine ⟨hprot, ?_⟩
      rcases hwu with rfl | rfl
      · cases hu.quiet (.value vaddr.val b) trivial hvalue
      · have hbyte := hu.contents hfits p (vpage vaddr) _ (offset_lt vaddr)
        show (u.out ++ [_]).filterMap Message.reply = _
        rw [List.filterMap_append, show u.out.filterMap Message.reply = [] from hquiet, hbyte]
        rfl

/-- Whether a store has been carried out can be read off the replies. -/
theorem any_isStored : u.out.any Message.isStored = true ↔ ∃ val, .stored val ∈ u.replies := by
  rw [List.any_eq_true]
  constructor
  · intro hany
    obtain ⟨m, hm, hstored⟩ := hany
    cases m with
    | stored val paddr => exact ⟨val, List.mem_filterMap.mpr ⟨_, hm, rfl⟩⟩
    | _ => cases hstored
  · intro hex
    obtain ⟨val, hval⟩ := hex
    obtain ⟨m, hm, hreply⟩ := List.mem_filterMap.mp hval
    refine ⟨m, hm, ?_⟩
    cases m with
    | stored val paddr => rfl
    | value vaddr val => cases hreply
    | _ => cases hreply

/-- The bytes change as the replies say. -/
theorem apply_replies {r : Int} (hreplies : u.replies = (s.mmu.exec c).2) :
    Event.apply ⟨c, r, u.out⟩ s.contents = (s.mmu.exec c).1.bytes := by
  cases c with
  | map p vaddr val => rfl
  | load p vaddr val =>
    by_cases hmapped : s.mmu.prot p (vpage vaddr) = none
    · rw [Mmu.exec_load_refused hmapped]
      rfl
    · rw [Mmu.exec_load hmapped]
      rfl
  | store p vaddr val =>
    by_cases hwrites : s.mmu.prot p (vpage vaddr) = some 1
    · rw [Mmu.exec_store hwrites] at hreplies ⊢
      apply if_pos
      rw [any_isStored, hreplies]
      exact ⟨val, List.mem_singleton.mpr rfl⟩
    · rw [Mmu.exec_store_refused hwrites] at hreplies ⊢
      apply if_neg
      rw [any_isStored, hreplies]
      rintro ⟨_, hmem⟩
      cases hmem

theorem startup_mmu (stack : List Page) :
    (startup stack).mmu = ⟨fun _ _ => none, fun _ _ => 0⟩ := by
  have h0 : ∀ p k, ((startup stack).entry p k).val = 0 := fun p k => entry_unset rfl k
  refine congr (congrArg Mmu.mk ?_) ?_
  · funext p k
    exact prot_none (h0 p k)
  · funext p vaddr
    exact pageByte_absent (h0 p _) _

/-- The command of an event, and what the process learns from it. -/
def Event.answer (e : Event) : Cmd × List Reply := (e.cmd, e.out.filterMap Message.reply)

theorem memsim_simulates : Simulates memsim mmu (fun s e => Keeps s e.cmd)
    (fun e => some e.answer) fun s m => Sound s ∧ s.mmu = m where
  init s hinit := by
    obtain ⟨stack, rfl⟩ := hinit
    exact ⟨_, rfl, ⟨startup_kept stack, startup_diskOk stack, startup_coherent stack⟩,
      startup_mmu stack⟩
  shown s m e x u hR hk hstep hview := by
    obtain ⟨hs, rfl⟩ := hR
    obtain rfl := Option.some_inj.mp hview
    have hsound := step_sound hs hk.guarded.1 hk.guarded.2 hstep
    obtain ⟨hexec, hout⟩ := hstep
    obtain ⟨hprot, hreplies⟩ := wp_ok (exec_answers hs hk) hexec
    have hbytes := (wp_ok (exec_contents hs hk) hexec).trans (apply_replies hreplies)
    refine ⟨u.mmu, ?_, hsound, rfl⟩
    have hmmu : (s.mmu.exec e.cmd).1 = u.mmu := by
      rw [show u.mmu = ⟨u.prot, u.contents⟩ from rfl, hprot, hbytes]
    show s.mmu.exec e.cmd = (u.mmu, e.out.filterMap Message.reply)
    rw [← hmmu, hout, show u.out.filterMap Message.reply = (s.mmu.exec e.cmd).2 from hreplies]
  hidden _ _ _ _ _ _ _ hview := by cases hview

/-- Only the overflow of linecount can stop such a command, if it loads no unmapped page. -/
theorem exec_ends (hs : Sound s) (hk : Keeps s c) (hmapped : ¬ LoadsUnmapped s c) :
    Ends (exec c) s fun _ _ => True := by
  obtain ⟨ho, hdisk, -, -⟩ := hk
  apply wp_congr (exec_run c)
  cases c with
  | map p vaddr val =>
    exact wp_imp (map_carried hs.reset reset_callsOk ho.reset) fun _ _ _ => trivial
  | load p vaddr val => exact wp_imp (load_carried hs.reset ho.reset hmapped) fun _ _ _ => trivial
  | store p vaddr val =>
    by_cases hin : (s.hardware p).inmem = .memory
    · obtain ⟨t, ht⟩ := hs.kept.owned.resident p hin
      rcases store_cases hs.reset ht vaddr val with
        ⟨-, m, -, hrun⟩ | ⟨d, -, -, -, hrun⟩ | ⟨hon, -⟩
      · exact (wp_of_ok hrun).mpr trivial
      · exact (wp_of_ok hrun).mpr trivial
      · exact absurd hon hdisk
    · exact wp_imp (store_away hs.reset ho.reset hin) fun _ _ _ => trivial

end Answers

end Cs3013.Memory
