import Cs3013.Memory.Removal
import Cs3013.Memory.SoundRuns

/-!
# An access with the page table on disk

`command` repeats what `store` and `load` do, for a page table that it first brings back. The two
paths are compared from any state that a run reaches, whatever the page tables hold there: from
the state with the table on disk, and from the state after the table has been brought back.
-/
namespace Cs3013.Memory

open Cs3013.Library.Faulting Cs3013.Library.Transition Machine

/-- `freespace(1,pid)` if no frame is free, then `loadPageTable(pid)`. -/
def bringBack (pid : Int) : M Int := do
  modify Machine.reset
  if (← get).freeCount < 1 then freespace 1 pid
  loadPageTable pid

/-- What an access tells its caller. -/
inductive Report where
  | stored (val : UInt8)
  | refused
  | value (val : UInt8)
  | unallocated
  deriving DecidableEq

def Message.report : Message → Option Report
  | .stored val _ => some (.stored val)
  | .notWriteable _ => some .refused
  | .storeSegfault _ => some .refused
  | .value _ val => some (.value val)
  | .notAllocated _ _ => some .unallocated
  | .loadSegfault _ => some .unallocated
  | _ => none

def reports (s : Machine) : List Report := s.out.filterMap Message.report

theorem reports_of_out {s u : Machine} {l : List Message} (h : u.out = s.out ++ l)
    (hl : ∀ m ∈ l, m.report = none) : reports u = reports s := by
  rw [reports, reports, h, List.filterMap_append, List.filterMap_eq_nil_iff.mpr hl, List.append_nil]

/-- What is seen of a run: nothing of one that stops at a fault. -/
def observed : EStateM.Result Fault Machine Int → Option (Int × List Report)
  | .ok r u => some (r, reports u)
  | .error _ _ => none

/-- The eviction and the load that follow the page table come to an end: the next frame can be
swapped out, and the entry does not name the first unused line of the file. -/
def Reloads (s : Machine) (p k : Fin 4) : Prop :=
  s.Evictable s.victim s.victim ∧
    ((s.evictPage s.victim s.victim (s.search s.victim s.victim)).entry p k).pfn.toNat ≠
      s.linecount + 1

instance (s : Machine) (t d : Fin 4) : Decidable (s.Evictable t d) :=
  decidable_of_iff ((0 < t.val ∨ (s.byte (16 * t.val)).toNat ≠ 16 * d.val) ∧
    16 * t.val + 4 * s.search t d + 3 < 64 ∧ s.linecount + 1 < 2 ^ 31)
    ⟨fun h => ⟨h.1, h.2.1, h.2.2⟩, fun h => ⟨h.search, h.entry, h.number⟩⟩

instance (s : Machine) (p k : Fin 4) : Decidable (Reloads s p k) :=
  inferInstanceAs (Decidable (_ ∧ _))

/-- Where `store` does the same on both paths, by the entry of the page. -/
def StoreAgrees (s : Machine) (p : Fin 4) (vaddr : Fin 64) : Prop :=
  (s.entry p (vpage vaddr)).prot = 1 ∧ (s.entry p (vpage vaddr)).val ≠ 0 ∧
    ((s.entry p (vpage vaddr)).val = 1 →
      (Reloads s p (vpage vaddr) ↔ (s.entry p (vpage vaddr)).pfn.toNat + offset vaddr < 64))

/-- Where `load` does the same on both paths, by the entry of the page. -/
def LoadAgrees (s : Machine) (p : Fin 4) (vaddr : Fin 64) : Prop :=
  if (s.entry p (vpage vaddr)).val = 0 then False
  else if (s.entry p (vpage vaddr)).val = 1 then
    (Reloads s p (vpage vaddr) → 0 < 16 * s.victim.val + offset vaddr)
  else if (s.entry p (vpage vaddr)).val = 2 then
    0 < (s.entry p (vpage vaddr)).pfn.toNat + offset vaddr
  else 64 ≤ (s.entry p (vpage vaddr)).pfn.toNat + offset vaddr

instance (s : Machine) (p : Fin 4) (vaddr : Fin 64) : Decidable (StoreAgrees s p vaddr) :=
  inferInstanceAs (Decidable (_ ∧ _))

instance (s : Machine) (p : Fin 4) (vaddr : Fin 64) : Decidable (LoadAgrees s p vaddr) := by
  unfold LoadAgrees
  infer_instance

/-! ## A page from any line -/

namespace Machine

variable (s : Machine) (p t i k : Fin 4) (n : Nat)

/-- What `temp` holds after `pageFromFile`: a number above linecount leaves it as it was. -/
def readPage : Page := if s.linecount < n then s.stack.headD zeroPage else s.line n

def told (l : List Message) : Machine := { s with out := s.out ++ l }

/-- Frame `i` filled for page `k` of `p`, whose table lies in frame `t`. -/
def fillPage (page : Page) : Machine :=
  (((s.writePage i page).withFrames (s.toFrames.givePage i p)).write
    (16 * t.val + 4 * k.val + 1) (UInt8.ofNat (16 * i.val))).write (16 * t.val + 4 * k.val + 3) 2

end Machine

section AnyLine

variable {s : Machine} {p t i : Fin 4} {vaddr : Fin 64} {n : Nat}

/-- `loadPage`, for what `pageFromFile` does with the line. -/
theorem loadPage_read (hp : s.TableAt p t)
    (hn : (s.byte (16 * t.val + 4 * (vaddr.val / 16) + 1)).toNat = n)
    (hi : frameList.find? s.freelist = some i) {r : Int} {page : Page} {l : List Message}
    (hread : ∀ w : Machine, w.swapspace = s.swapspace → w.linecount = s.linecount →
      (pageFromFile (s.stack.headD zeroPage) (n : Int)).run w =
        .ok (r, page) (w.told l)) :
    (loadPage p.val vaddr.val).run s = .ok (16 * i.val)
      ((((s.popped.told l).fillPage p t i (vpage vaddr) page).printed
        (.pageLoaded (vaddr.val / 16) p.val (16 * i.val))).noted (.findfree (16 * i.val))) := by
  have haddr : UInt8.ofInt (16 * (i.val : Int)) = UInt8.ofNat (16 * i.val) := by
    exact_mod_cast ofInt_natCast (16 * i.val)
  have hline : (peek (16 * (t.val : Int) + 4 * (vaddr.val / 16 : Nat) + 1)).run s = _ :=
    peek_eq (a := 16 * t.val + 4 * (vaddr.val / 16) + 1) (by push_cast; rfl) (by omega)
  have hfile : (pageFromFile (((s.withFrames (s.toFrames.take i)).noted
      (.findfree (16 * i.val))).stack.headD zeroPage) (n : Int)).run
        ((s.withFrames (s.toFrames.take i)).noted (.findfree (16 * i.val))).popped = _ :=
    hread _ rfl rfl
  rw [loadPage, bind_of_ok (findpte_memory hp vaddr.val), bind_of_ok hline,
    bind_of_ok (findfree_some hi), bind_of_ok (note_ok _), bind_of_ok uninitialised_ok, hn,
    bind_of_ok hfile, bind_of_ok (swaptomem_ok _ i),
    bind_of_ok (setPages_ok i _), bind_of_ok (findpte_memory (t := t) ?_ vaddr.val),
    bind_of_ok (poke_eq (a := 16 * t.val + 4 * (vaddr.val / 16) + 1) (by push_cast; rfl)
      (by omega) _),
    bind_of_ok (findpte_memory (t := t) ?_ vaddr.val),
    bind_of_ok (poke_eq (a := 16 * t.val + 4 * (vaddr.val / 16) + 3) (by push_cast; rfl)
      (by omega) _),
    bind_of_ok (say_ok _), haddr]
  · rfl
  · exact hp
  · exact hp

variable (vaddr) in
/-- Any number but that of the first unused line. -/
theorem loadPage_any (hp : s.TableAt p t) (hfile : FileOk s)
    (hi : frameList.find? s.freelist = some i)
    (hn : (s.entry p (vpage vaddr)).pfn.toNat ≠ s.linecount) :
    ∃ l : List Message, (∀ m ∈ l, m.report = none) ∧
      (loadPage p.val vaddr.val).run s = .ok (16 * i.val)
        ((((s.popped.told l).fillPage p t i (vpage vaddr)
          (s.readPage (s.entry p (vpage vaddr)).pfn.toNat)).printed
          (.pageLoaded (vaddr.val / 16) p.val (16 * i.val))).noted (.findfree (16 * i.val))) := by
  have hbyte : (s.byte (16 * t.val + 4 * (vaddr.val / 16) + 1)).toNat =
      (s.entry p (vpage vaddr)).pfn.toNat := by
    rw [Nat.add_assoc, ← tableByte_memory hp]
    rfl
  by_cases hbeyond : s.linecount < (s.entry p (vpage vaddr)).pfn.toNat
  · refine ⟨[.lineNotFound (s.entry p (vpage vaddr)).pfn.toNat], by simp [Message.report], ?_⟩
    apply loadPage_read (r := -1) hp hbyte hi
    intro w htext hcount
    rw [readPage, if_pos hbeyond]
    exact pageFromFile_beyond _ (by rw [hcount]; exact hbeyond)
  · refine ⟨[], by simp, ?_⟩
    apply loadPage_read (r := 1) hp hbyte hi
    intro w htext hcount
    rw [readPage, if_neg hbeyond, told, List.append_nil]
    exact pageFromFile_congr hfile htext hcount _ (by omega)

theorem loadPage_lost (hp : s.TableAt p t) (hfile : FileOk s)
    (hi : frameList.find? s.freelist = some i)
    (hn : (s.entry p (vpage vaddr)).pfn.toNat = s.linecount) :
    ∃ e u, (loadPage p.val vaddr.val).run s = .error e u := by
  have hline : (peek (16 * (t.val : Int) + 4 * (vaddr.val / 16 : Nat) + 1)).run s = _ :=
    peek_entry hp vaddr.isLt (j := 1) (by decide) rfl
  have hbyte : (s.tableByte p (4 * (vaddr.val / 16) + 1)).toNat = s.linecount := hn
  have hfile' : FileOk ((s.withFrames (s.toFrames.take i)).noted (.findfree (16 * i.val))).popped :=
    hfile.congr rfl rfl
  obtain ⟨e, he⟩ := pageFromFile_fault hfile' (((s.withFrames (s.toFrames.take i)).noted
    (.findfree (16 * i.val))).stack.headD zeroPage)
  rw [loadPage, bind_of_ok (findpte_memory hp vaddr.val), bind_of_ok hline,
    bind_of_ok (findfree_some hi), bind_of_ok (note_ok _), bind_of_ok uninitialised_ok, hbyte]
  rw [bind_run]
  exact ⟨e, _, by rw [show (pageFromFile _ (s.linecount : Int)).run _ = _ from he]⟩

end AnyLine

/-! ## The second eviction -/

section Reload

variable {s : Machine} {p t d : Fin 4} {vaddr : Fin 64} {vp : Nat}

theorem fillPage_byte {i k : Fin 4} (page : Page) (b : Nat) :
    (s.fillPage p t i k page).byte b =
      if b = 16 * t.val + 4 * k.val + 3 then 2
      else if b = 16 * t.val + 4 * k.val + 1 then UInt8.ofNat (16 * i.val)
      else if 16 * i.val ≤ b ∧ b < 16 * i.val + 16 then page.byte (b - 16 * i.val)
      else s.byte b := by
  show (((s.writePage i page).write _ _).write _ _).byte b = _
  rw [byte_write _ (by omega), byte_write _ (by omega), byte_writePage]

theorem fillPage_entry {i k : Fin 4} (hp : s.TableAt p t) (hi : i ≠ t) (page : Page) :
    (s.fillPage p t i k page).entry p k = ⟨UInt8.ofNat (16 * i.val), (s.entry p k).prot, 2⟩ := by
  have hne : i.val ≠ t.val := fun h => hi (Fin.ext h)
  have hp' : (s.fillPage p t i k page).TableAt p t := hp
  have hpfn : (s.fillPage p t i k page).byte (16 * t.val + (4 * k.val + 1)) =
      UInt8.ofNat (16 * i.val) := by
    rw [fillPage_byte, if_neg (by omega), if_pos (by omega)]
  have hprot : (s.fillPage p t i k page).byte (16 * t.val + (4 * k.val + 2)) =
      s.byte (16 * t.val + (4 * k.val + 2)) := by
    rw [fillPage_byte, if_neg (by omega), if_neg (by omega), if_neg (by omega)]
  have hval : (s.fillPage p t i k page).byte (16 * t.val + (4 * k.val + 3)) = 2 := by
    rw [fillPage_byte, if_pos (by omega)]
  simp only [Machine.entry, tableByte_memory hp, tableByte_memory hp', hpfn, hprot, hval]

/-- Wherever the search leads, an eviction changes no protection. -/
theorem evictPage_prot {w k : Fin 4} (hvp : 16 * t.val + 4 * vp + 3 < 64) (hp : s.TableAt p w)
    (hd : d ≠ w) : ((s.evictPage t d vp).entry p k).prot = (s.entry p k).prot := by
  have hne : d.val ≠ w.val := fun h => hd (Fin.ext h)
  have hp' : (s.evictPage t d vp).TableAt p w := hp
  simp only [Machine.entry, tableByte_memory hp, tableByte_memory hp', byte_evictPage hvp]
  rw [if_neg (by omega), if_neg (by omega), if_neg (by omega)]

/-- The machine with all four tables in memory, after the frame in turn has been swapped out. -/
def Machine.evictNext (s : Machine) : Machine :=
  s.evictPage s.victim s.victim (s.search s.victim s.victim)

/-- The byte of page `k` of `p` that comes back from the file behind that eviction. -/
def Machine.reloadByte (s : Machine) (p k : Fin 4) (o : Nat) : UInt8 :=
  (s.evictNext.readPage (s.evictNext.entry p k).pfn.toNat).byte o

/-- The page behind its page table: it lies in the frame that was swapped out. -/
structure Reloaded (s u : Machine) (p t : Fin 4) (vaddr : Fin 64) : Prop where
  table : u.TableAt p t
  entry : u.entry p (vpage vaddr) =
    ⟨UInt8.ofNat (16 * s.victim.val), (s.entry p (vpage vaddr)).prot, 2⟩
  byte : u.byte (16 * s.victim.val + offset vaddr) =
    s.reloadByte p (vpage vaddr) (offset vaddr)
  quiet : reports u = reports s

theorem Reloaded.pfn {u : Machine} (h : Reloaded s u p t vaddr) :
    (u.entry p (vpage vaddr)).pfn.toNat = 16 * s.victim.val := by
  rw [h.entry, UInt8.toNat_ofNat']
  omega

theorem Reloaded.prot {u : Machine} (h : Reloaded s u p t vaddr) :
    (u.entry p (vpage vaddr)).prot = (s.entry p (vpage vaddr)).prot := by
  rw [h.entry]

theorem Reloaded.val_ne {u : Machine} (h : Reloaded s u p t vaddr) :
    ¬ (u.entry p (vpage vaddr)).val = 0 := by
  rw [h.entry]
  show ¬ (2 : UInt8) = 0
  decide

variable (hfull : s.Full) (hall : ∀ i, s.ispagetable i = true) (hdisk : s.DiskOk)
  (hp : s.TableAt p t)

include hfull hall

theorem freespace_tables (p : Fin 4) : ∃ q : Fin 4, s.pages s.victim = (q.val : Int) ∧
    s.TableAt q s.victim ∧ (freespace 1 p.val).run s = (swapOutAt s.victim).run s := by
  obtain ⟨q, hq⟩ := hfull.owned.flagged _ (hall s.victim)
  have hcount : s.freeCount + 1 = 1 := by rw [Frames.freeCount_eq_zero hfull.used]
  exact ⟨q, (hfull.owned.table q _ hq).2, hq, freespace_one hcount (hfull.owned.ownFlagged p)⟩

include hdisk hp

variable (vaddr) in
theorem reload_ok (ht : s.victim ≠ t) (hr : Reloads s p (vpage vaddr)) :
    ∃ u, (do freespace 1 p.val; loadPage p.val vaddr.val : M Int).run s =
      .ok (16 * s.victim.val) u ∧ Reloaded s u p t vaddr := by
  obtain ⟨q, hpages, hq, hfree⟩ := freespace_tables hfull hall p
  have hevict := swapOutAt_ok hpages hq hr.1
  have hentry := hr.1.entry
  have hne : s.victim.val ≠ t.val := fun h => ht (Fin.ext h)
  have hk := (vpage vaddr).isLt
  have hoff := offset_lt vaddr
  have htable : s.evictNext.TableAt p t := hp
  have hfind : frameList.find? s.evictNext.freelist = some s.victim := Frames.find?_evict hfull.used
  have hfile : FileOk s.evictNext :=
    (evicted_disk hdisk hr.1.number s.victim).file.congr rfl rfl
  obtain ⟨l, hl, hload⟩ := loadPage_any vaddr htable hfile hfind hr.2
  refine ⟨(((s.evictNext.popped.told l).fillPage p t s.victim (vpage vaddr)
    (s.evictNext.readPage (s.evictNext.entry p (vpage vaddr)).pfn.toNat)).printed
    (.pageLoaded (vaddr.val / 16) p.val (16 * s.victim.val))).noted
    (.findfree (16 * s.victim.val)), ?_, ?_⟩
  · rw [bind_of_ok (hfree.trans hevict)]
    exact hload
  constructor
  · exact hp
  · show (((s.evictNext.popped.told l).fillPage p t s.victim (vpage vaddr) _)).entry p _ = _
    rw [fillPage_entry (s := s.evictNext.popped.told l) hp ht]
    exact congrArg (Entry.mk _ · 2) (evictPage_prot hentry hp ht)
  · show Machine.byte (((s.evictNext.popped.told l).fillPage p t s.victim (vpage vaddr)
      (s.evictNext.readPage (s.evictNext.entry p (vpage vaddr)).pfn.toNat))) _ = _
    rw [fillPage_byte, if_neg (by omega), if_neg (by omega), if_pos (by omega),
      Nat.add_sub_cancel_left]
    rfl
  · apply reports_of_out (l := [.frameSwapped s.victim.val (s.linecount + 1)] ++ l ++
      [.pageLoaded (vaddr.val / 16) p.val (16 * s.victim.val)])
    · show s.out ++ _ ++ l ++ _ = _
      simp only [List.append_assoc]
    · intro m hm
      simp only [List.mem_append, List.mem_singleton] at hm
      obtain (rfl | hm) | rfl := hm
      · rfl
      · exact hl m hm
      · rfl

variable (vaddr) in
theorem reload_fault (hr : ¬ Reloads s p (vpage vaddr)) :
    ∃ e u, (do freespace 1 p.val; loadPage p.val vaddr.val : M Int).run s = .error e u := by
  obtain ⟨q, hpages, hq, hfree⟩ := freespace_tables hfull hall p
  rw [bind_run, hfree]
  by_cases hevict : s.Evictable s.victim s.victim
  · have hline : (s.evictNext.entry p (vpage vaddr)).pfn.toNat = s.evictNext.linecount := by
      by_contra hne
      exact hr ⟨hevict, hne⟩
    have hfind : frameList.find? s.evictNext.freelist = some s.victim :=
      Frames.find?_evict hfull.used
    have hfile : FileOk s.evictNext :=
      (evicted_disk hdisk hevict.number s.victim).file.congr rfl rfl
    rw [swapOutAt_ok hpages hq hevict]
    exact loadPage_lost (t := t) hp hfile hfind hline
  · obtain ⟨e, u, hrun⟩ := swapOutAt_fault hpages hq hevict
    rw [hrun]
    exact ⟨e, u, rfl⟩

end Reload

/-! ## The page table brought back -/

/-- All four frames hold page tables, that of `p` the frame that was next in `s`. -/
structure Returned (s u : Machine) (p : Fin 4) : Prop where
  full : u.Full
  flagged : ∀ i, u.ispagetable i = true
  disk : u.DiskOk
  table : u.TableAt p s.victim
  other : u.victim ≠ s.victim
  quiet : reports u = reports s

section Return

variable {s u : Machine} {p : Fin 4} {r : Int}

theorem Returned.of_run (hfull : s.Full) (hdisk : s.DiskOk) (hin : (s.hardware p).inmem = .file)
    (hrun : (do freespace 1 p.val; loadPageTable p.val : M Int).run s = .ok r u) :
    Returned s u p := by
  obtain ⟨q, t, hq, ht⟩ := hfull.owned.owner_of_used (hfull.used s.victim)
  have hcount : s.freeCount + 1 = 1 := by rw [Frames.freeCount_eq_zero hfull.used]
  have hfree : (freespace 1 p.val).run s = (swapOutAt s.victim).run s :=
    freespace_one hcount (hfull.owned.ownFlagged p)
  obtain ⟨n, hn, hline⟩ := hdisk.line p hin
  by_cases hevict : s.Evictable t s.victim
  · have hdisk' : (s.evictPage t s.victim (s.search t s.victim)).DiskOk :=
      (evicted_disk hdisk hevict.number s.victim).congr rfl rfl rfl
    have hload := loadPageTable_ok (s := s.evictPage t s.victim (s.search t s.victim))
      hline (Nat.lt_succ_of_lt hn) hdisk'.file (Frames.find?_evict hfull.used)
    rw [bind_of_ok (hfree.trans (swapOutAt_ok hq ht hevict)), hload] at hrun
    cases hrun
    obtain ⟨hfull', hflagged⟩ := hfull.fetch hin
    have hnext := (hfull.fetch_crowded hin).2
    rw [← Frames.victim_all_flagged hflagged] at hnext
    refine ⟨hfull', hflagged, loadTable_disk hdisk', Frames.giveTable_tableAt, ?_, ?_⟩
    · intro hsame
      apply hnext
      show (s.toFrames.fetchTable p).pages _ = _
      rw [show (s.toFrames.fetchTable p).victim = s.victim from hsame]
      exact Function.update_self _ _ _
    · apply reports_of_out (l := [.frameSwapped s.victim.val (s.linecount + 1),
        .tableLoaded p.val (16 * s.victim.val)])
      · show (s.out ++ _) ++ _ = _
        rw [List.append_assoc]
        rfl
      · simp [Message.report]
  · obtain ⟨e, v, hfault⟩ := swapOutAt_fault hq ht hevict
    rw [bind_run, hfree, hfault] at hrun
    cases hrun

end Return

/-! ## The accesses, with the table in memory and with the table brought back -/

section Paths

variable {s u : Machine} {p t : Fin 4} {vaddr : Fin 64} {val : UInt8}

theorem observed_printed (r : Int) (m : Message) :
    observed (.ok r (u.printed m)) = some (r, reports u ++ m.report.toList) := by
  have hsplit : reports (u.printed m) = reports u ++ [m].filterMap Message.report :=
    List.filterMap_append
  rw [observed, hsplit]
  cases m <;> rfl

/-- The last part of `command` for a store. -/
theorem command_store (hfetch : (fetch p.val vaddr.val).run s = .ok () u) (hp : u.TableAt p t) :
    (command .s p.val vaddr.val val).run s =
      if (u.entry p (vpage vaddr)).prot = 1 then
        if (u.entry p (vpage vaddr)).val = 0 then .error (.mem (-1)) u
        else if (u.entry p (vpage vaddr)).pfn.toNat + offset vaddr < 64 then
          .ok () ((u.write ((u.entry p (vpage vaddr)).pfn.toNat + offset vaddr) val).printed
            (.stored val ((u.entry p (vpage vaddr)).pfn.toNat + offset vaddr : Nat)))
        else .error (.mem ((u.entry p (vpage vaddr)).pfn.toNat + offset vaddr : Nat)) u
      else .ok () (u.printed (.notWriteable vaddr.val)) := by
  rw [command, bind_of_ok hfetch]
  rw [bind_of_ok (findpte_memory hp vaddr.val), bind_of_ok (peek_prot hp vaddr)]
  by_cases h1 : (u.entry p (vpage vaddr)).prot = 1
  · rw [if_pos h1, if_pos h1, bind_of_ok (convert_entry hp vaddr)]
    by_cases h0 : (u.entry p (vpage vaddr)).val = 0
    · rw [if_pos h0, if_pos h0]
      rfl
    · rw [if_neg h0, if_neg h0, ← Int.natCast_add]
      by_cases ha : (u.entry p (vpage vaddr)).pfn.toNat + offset vaddr < 64
      · rw [if_pos ha, bind_of_ok (poke_of_lt ha val)]
        rfl
      · rw [if_neg ha, bind_run, poke_fault rfl (by omega)]
  · rw [if_neg h1, if_neg h1]
    rfl

/-- The last part of `command` for a load. -/
theorem command_load (hfetch : (fetch p.val vaddr.val).run s = .ok () u) (hp : u.TableAt p t) :
    (command .l p.val vaddr.val val).run s =
      if (u.entry p (vpage vaddr)).val = 0 ∨
          (u.entry p (vpage vaddr)).pfn.toNat + offset vaddr = 0 then .ok () u
      else if (u.entry p (vpage vaddr)).pfn.toNat + offset vaddr < 64 then
        .ok () (u.printed (.value vaddr.val
          (u.byte ((u.entry p (vpage vaddr)).pfn.toNat + offset vaddr))))
      else .error (.mem ((u.entry p (vpage vaddr)).pfn.toNat + offset vaddr : Nat)) u := by
  rw [command, bind_of_ok hfetch]
  rw [bind_of_ok (convert_entry hp vaddr)]
  by_cases h0 : (u.entry p (vpage vaddr)).val = 0
  · have hneg : ¬ (-1 : Int) > 0 := by decide
    rw [if_pos h0, if_neg hneg, if_pos (Or.inl h0)]
    rfl
  · rw [if_neg h0, ← Int.natCast_add]
    by_cases hzero : (u.entry p (vpage vaddr)).pfn.toNat + offset vaddr = 0
    · have hneg : ¬ (((0 : Nat) : Int) > 0) := by decide
      rw [if_pos (Or.inr hzero), hzero, if_neg hneg]
      rfl
    · have hpos : ((((u.entry p (vpage vaddr)).pfn.toNat + offset vaddr : Nat)) : Int) > 0 := by
        omega
      rw [if_neg (not_or.mpr ⟨h0, hzero⟩), if_pos hpos]
      by_cases ha : (u.entry p (vpage vaddr)).pfn.toNat + offset vaddr < 64
      · rw [if_pos ha, bind_of_ok (peek_of_lt ha)]
        rfl
      · rw [if_neg ha, bind_run, peek_fault rfl (by omega)]

theorem store_onFile (hin : (s.hardware p).inmem = .file) :
    (store p.val vaddr.val val).run s =
      (do command .s p.val vaddr.val val; return 1 : M Int).run s := by
  rw [store, bind_of_ok (findpte_file hin _)]
  rfl

theorem load_onFile (hin : (s.hardware p).inmem = .file) :
    (load p.val vaddr.val val).run s =
      (do command .l p.val vaddr.val val; return 1 : M Int).run s := by
  rw [load, bind_of_ok (findpte_file hin _)]
  rfl

end Paths

/-- What a store shows with the table in memory, by the entry of the page and the offset. -/
def thereStore (e : Entry) (o : Nat) (val : UInt8) : Option (Int × List Report) :=
  if e.val = 0 then some (0, [.refused])
  else if e.prot = 1 then if e.pfn.toNat + o < 64 then some (1, [.stored val]) else none
  else some (0, [.refused])

/-- What a store shows with the table brought back; `reloads` says if the page behind it can be. -/
def broughtStore (e : Entry) (o : Nat) (reloads : Prop) [Decidable reloads] (val : UInt8) :
    Option (Int × List Report) :=
  if e.val = 1 ∧ ¬ reloads then none
  else if e.prot = 1 then
    if e.val = 0 then none
    else if e.val = 1 ∨ e.pfn.toNat + o < 64 then some (1, [.stored val])
    else none
  else some (1, [.refused])

/-- What a load shows with the table in memory. A page that comes from the file goes to address
`base` and has `x` there; otherwise the byte read is `y`. -/
def thereLoad (e : Entry) (o base : Nat) (reloads : Prop) [Decidable reloads] (x y : UInt8) :
    Option (Int × List Report) :=
  if e.val = 1 then
    if reloads then if 0 < base + o then some (1, [.value x]) else some (0, []) else none
  else if e.val = 0 then none
  else if e.pfn.toNat + o < 64 then
    if e.val = 2 then some (1, [.value y]) else some (0, [.unallocated])
  else none

def broughtLoad (e : Entry) (o base : Nat) (reloads : Prop) [Decidable reloads] (x y : UInt8) :
    Option (Int × List Report) :=
  if e.val = 1 then
    if reloads then if 0 < base + o then some (1, [.value x]) else some (1, []) else none
  else if e.val = 0 ∨ e.pfn.toNat + o = 0 then some (1, [])
  else if e.pfn.toNat + o < 64 then some (1, [.value y])
  else none

section There

variable {u : Machine} {p t : Fin 4} {vaddr : Fin 64} {val : UInt8} (hp : u.TableAt p t)
  (hquiet : reports u = [])

include hp hquiet

variable (vaddr val) in
theorem store_there : observed ((store p.val vaddr.val val).run u) =
    thereStore (u.entry p (vpage vaddr)) (offset vaddr) val := by
  have hwrite : ∀ a, reports (u.write a val) = [] := fun _ => hquiet
  rw [store_memory hp, thereStore]
  split_ifs
  · rw [observed_printed, hquiet]
    rfl
  · rw [observed_printed, hwrite]
    rfl
  · rfl
  · rw [observed_printed, hquiet]
    rfl

omit hp in
/-- The last part of `load` for a page on disk. -/
theorem value_loaded {w : Machine} (hw : Reloaded u w p t vaddr) :
    observed ((do
      let paddr ← convert vaddr.val p.val
      if paddr > 0 then
        say (.value vaddr.val (← peek paddr))
        return 1
      else
        return 0 : M Int).run w) =
    if 0 < 16 * u.victim.val + offset vaddr then
      some (1, [.value (u.reloadByte p (vpage vaddr) (offset vaddr))])
    else some (0, []) := by
  have hoff := offset_lt vaddr
  rw [bind_of_ok (convert_entry hw.table vaddr), if_neg hw.val_ne, hw.pfn]
  by_cases hpos : 0 < 16 * u.victim.val + offset vaddr
  · rw [if_pos hpos, if_pos (by omega), ← Int.natCast_add, bind_of_ok (peek_of_lt (by omega)),
      bind_of_ok (say_ok _), hw.byte, pure_run, observed_printed, hw.quiet, hquiet]
    rfl
  · rw [if_neg hpos, if_neg (by omega), pure_run, observed, hw.quiet, hquiet]

variable (vaddr val) in
theorem load_there (hfull : u.Full) (hall : ∀ i, u.ispagetable i = true) (hdisk : u.DiskOk)
    (ht : u.victim ≠ t) : observed ((load p.val vaddr.val val).run u) =
    thereLoad (u.entry p (vpage vaddr)) (offset vaddr) (16 * u.victim.val)
      (Reloads u p (vpage vaddr)) (u.reloadByte p (vpage vaddr) (offset vaddr))
      (u.byte ((u.entry p (vpage vaddr)).pfn.toNat + offset vaddr)) := by
  have hpte : (16 * (t.val : Int) + 4 * (vaddr.val / 16 : Nat)) ≥ 0 := by omega
  rw [thereLoad]
  by_cases h1 : (u.entry p (vpage vaddr)).val = 1
  · rw [if_pos h1, load, bind_of_ok (findpte_memory hp _), if_pos hpte,
      bind_of_ok (peek_val hp vaddr), if_pos h1, bind_of_ok get_run,
      if_neg (not_any_of_used hfull.used), ← bind_assoc]
    by_cases hr : Reloads u p (vpage vaddr)
    · obtain ⟨w, hrun, hw⟩ := reload_ok vaddr hfull hall hdisk hp ht hr
      rw [if_pos hr, bind_of_ok hrun]
      exact value_loaded hquiet hw
    · obtain ⟨e, w, hrun⟩ := reload_fault vaddr hfull hall hdisk hp hr
      rw [if_neg hr, bind_run, hrun]
      rfl
  rw [if_neg h1]
  by_cases h0 : (u.entry p (vpage vaddr)).val = 0
  · rw [if_pos h0, load_absent hp h0]
    rfl
  rw [if_neg h0, load_memory hp h0 h1]
  split_ifs
  · rw [observed_printed, hquiet]
    rfl
  · rw [observed_printed, hquiet]
    rfl
  · rfl

end There

section Brought

variable {s u : Machine} {p : Fin 4} {vaddr : Fin 64} {val : UInt8} {r : Int}
  (hused : ∀ i, s.freelist i = false) (hin : (s.hardware p).inmem = .file)
  (hrun : (do freespace 1 p.val; loadPageTable p.val : M Int).run s = .ok r u)
  (hret : Returned s u p)

include hused hin hrun hret

/-- `command` brings the page table back as `bringBack` does. -/
theorem fetch_brought : (fetch p.val vaddr.val).run s =
    if (u.entry p (vpage vaddr)).val = 1 then
      (do let _ ← (do freespace 1 p.val; loadPage p.val vaddr.val : M Int)
          return ⟨⟩ : M Unit).run u
    else .ok () u := by
  have hspace : ((s.freeCount : Nat) : Int) = 0 := by
    rw [Frames.freeCount_eq_zero hused]
    rfl
  rw [fetch, bind_of_ok get_run, bind_of_ok (hardwareOf_ok p), hspace, if_pos hin,
    if_pos (by decide), ← bind_assoc, bind_of_ok hrun, bind_of_ok (findpte_memory hret.table _),
    bind_of_ok (peek_val hret.table vaddr)]
  by_cases h1 : (u.entry p (vpage vaddr)).val = 1
  · rw [if_pos h1, if_pos h1, if_pos (by decide), ← bind_assoc]
  · rw [if_neg h1, if_neg h1]
    rfl

theorem fetch_stays (h1 : (u.entry p (vpage vaddr)).val ≠ 1) :
    (fetch p.val vaddr.val).run s = .ok () u := by
  rw [fetch_brought hused hin hrun hret, if_neg h1]

theorem fetch_reloads (h1 : (u.entry p (vpage vaddr)).val = 1) (hr : Reloads u p (vpage vaddr)) :
    ∃ w, (fetch p.val vaddr.val).run s = .ok () w ∧ Reloaded u w p s.victim vaddr := by
  obtain ⟨w, hreload, hw⟩ :=
    reload_ok vaddr hret.full hret.flagged hret.disk hret.table hret.other hr
  refine ⟨w, ?_, hw⟩
  rw [fetch_brought hused hin hrun hret, if_pos h1, bind_of_ok hreload]
  rfl

theorem fetch_lost (h1 : (u.entry p (vpage vaddr)).val = 1) (hr : ¬ Reloads u p (vpage vaddr)) :
    ∃ e w, (fetch p.val vaddr.val).run s = .error e w := by
  obtain ⟨e, w, hfault⟩ := reload_fault vaddr hret.full hret.flagged hret.disk hret.table hr
  refine ⟨e, w, ?_⟩
  rw [fetch_brought hused hin hrun hret, if_pos h1, bind_run, hfault]

variable (vaddr val) in
theorem store_brought (hquiet : reports u = []) :
    observed ((store p.val vaddr.val val).run s) =
      broughtStore (u.entry p (vpage vaddr)) (offset vaddr) (Reloads u p (vpage vaddr)) val := by
  have hoff := offset_lt vaddr
  rw [store_onFile hin, broughtStore]
  by_cases h1 : (u.entry p (vpage vaddr)).val = 1
  · have h0 : ¬ (u.entry p (vpage vaddr)).val = 0 := by
      rw [h1]
      decide
    by_cases hr : Reloads u p (vpage vaddr)
    · obtain ⟨w, hfetch, hw⟩ := fetch_reloads hused hin hrun hret h1 hr
      have hquiet' : ∀ a, reports (w.write a val) = [] := fun _ => hw.quiet.trans hquiet
      have ha : 16 * u.victim.val + offset vaddr < 64 := by omega
      rw [if_neg (not_and_not_right.mpr fun _ => hr), if_neg h0, if_pos (Or.inl h1), bind_run,
        command_store hfetch hw.table, hw.prot, if_neg hw.val_ne, hw.pfn, if_pos ha]
      by_cases hone : (u.entry p (vpage vaddr)).prot = 1
      · rw [if_pos hone, if_pos hone]
        dsimp only
        rw [pure_run, observed_printed, hquiet']
        rfl
      · rw [if_neg hone, if_neg hone]
        dsimp only
        rw [pure_run, observed_printed, hw.quiet, hquiet]
        rfl
    · obtain ⟨e, w, hfetch⟩ := fetch_lost hused hin hrun hret h1 hr
      rw [if_pos ⟨h1, hr⟩, command, bind_assoc, bind_run, hfetch]
      rfl
  · have hquiet' : ∀ a, reports (u.write a val) = [] := fun _ => hquiet
    simp only [h1, false_and, false_or, if_false]
    rw [bind_run, command_store (fetch_stays hused hin hrun hret h1) hret.table]
    split_ifs
    · rfl
    · dsimp only
      rw [pure_run, observed_printed, hquiet']
      rfl
    · rfl
    · dsimp only
      rw [pure_run, observed_printed, hquiet]
      rfl

variable (vaddr val) in
theorem load_brought (hquiet : reports u = []) : observed ((load p.val vaddr.val val).run s) =
    broughtLoad (u.entry p (vpage vaddr)) (offset vaddr) (16 * u.victim.val)
      (Reloads u p (vpage vaddr)) (u.reloadByte p (vpage vaddr) (offset vaddr))
      (u.byte ((u.entry p (vpage vaddr)).pfn.toNat + offset vaddr)) := by
  have hoff := offset_lt vaddr
  rw [load_onFile hin, broughtLoad]
  by_cases h1 : (u.entry p (vpage vaddr)).val = 1
  · rw [if_pos h1]
    by_cases hr : Reloads u p (vpage vaddr)
    · obtain ⟨w, hfetch, hw⟩ := fetch_reloads hused hin hrun hret h1 hr
      have ha : 16 * u.victim.val + offset vaddr < 64 := by omega
      rw [if_pos hr, bind_run, command_load hfetch hw.table, hw.pfn]
      simp only [hw.val_ne, false_or]
      by_cases hpos : 0 < 16 * u.victim.val + offset vaddr
      · rw [if_pos hpos, if_neg (Nat.ne_of_gt hpos), if_pos ha, hw.byte]
        dsimp only
        rw [pure_run, observed_printed, hw.quiet, hquiet]
        rfl
      · rw [if_neg hpos, if_pos (by omega)]
        dsimp only
        rw [pure_run, observed, hw.quiet, hquiet]
    · obtain ⟨e, w, hfetch⟩ := fetch_lost hused hin hrun hret h1 hr
      rw [if_neg hr, command, bind_assoc, bind_run, hfetch]
      rfl
  · rw [if_neg h1, bind_run, command_load (fetch_stays hused hin hrun hret h1) hret.table]
    split_ifs
    · dsimp only
      rw [pure_run, observed, hquiet]
    · dsimp only
      rw [pure_run, observed_printed, hquiet]
      rfl
    · rfl

end Brought

/-! ## Where the two paths agree -/

theorem broughtStore_eq_iff (e : Entry) (o : Nat) (reloads : Prop) [Decidable reloads]
    (val : UInt8) : broughtStore e o reloads val = thereStore e o val ↔
      e.prot = 1 ∧ e.val ≠ 0 ∧ (e.val = 1 → (reloads ↔ e.pfn.toNat + o < 64)) := by
  have h01 : ¬ (0 : UInt8) = 1 := by decide
  unfold broughtStore thereStore
  by_cases h0 : e.val = 0
  · by_cases hprot : e.prot = 1 <;> simp [h0, hprot, h01]
  by_cases hprot : e.prot = 1
  · by_cases h1 : e.val = 1
    · by_cases hr : reloads <;> by_cases ha : e.pfn.toNat + o < 64 <;> simp [hprot, h1, hr, ha]
    · simp [h0, hprot, h1]
  · by_cases hlost : e.val = 1 ∧ ¬ reloads <;> simp [h0, hprot, hlost]

theorem broughtLoad_eq_iff (e : Entry) (o base : Nat) (reloads : Prop) [Decidable reloads]
    (x y : UInt8) : broughtLoad e o base reloads x y = thereLoad e o base reloads x y ↔
      if e.val = 0 then False
      else if e.val = 1 then reloads → 0 < base + o
      else if e.val = 2 then 0 < e.pfn.toNat + o
      else 64 ≤ e.pfn.toNat + o := by
  have h01 : ¬ (0 : UInt8) = 1 := by decide
  unfold broughtLoad thereLoad
  by_cases h0 : e.val = 0
  · simp [h0, h01]
  by_cases h1 : e.val = 1
  · by_cases hr : reloads <;> by_cases hpos : 0 < base + o <;> simp [h1, hr, hpos]
  simp only [h0, h1, if_false, false_or]
  by_cases hzero : e.pfn.toNat + o = 0
  · by_cases h2 : e.val = 2 <;> simp [hzero, h2]
  · rw [if_neg hzero]
    by_cases ha : e.pfn.toNat + o < 64
    · rw [if_pos ha, if_pos ha]
      by_cases h2 : e.val = 2
      · rw [if_pos h2, if_pos h2]
        exact ⟨fun _ => Nat.pos_of_ne_zero hzero, fun _ => rfl⟩
      · rw [if_neg h2, if_neg h2]
        constructor
        · intro heq
          cases heq
        · intro hle
          exact absurd ha (Nat.not_lt.mpr hle)
    · rw [if_neg ha, if_neg ha]
      by_cases h2 : e.val = 2
      · rw [if_pos h2]
        exact ⟨fun _ => Nat.pos_of_ne_zero hzero, fun _ => rfl⟩
      · rw [if_neg h2]
        exact ⟨fun _ => Nat.not_lt.mp ha, fun _ => rfl⟩

section Agree

variable {h : List Event} {s s' : Machine} {p : Fin 4} {r : Int}

/-- The ghost fields do not matter to the second eviction. -/
theorem reset_evictNext : s.reset.evictNext.mem = s.evictNext.mem ∧
    s.reset.evictNext.swapspace = s.evictNext.swapspace := by
  have hvictim : s.reset.victim = s.victim := rfl
  have hsearch : s.reset.search s.victim s.victim = s.search s.victim s.victim := rfl
  unfold Machine.evictNext
  rw [hvictim, hsearch]
  exact ⟨rfl, rfl⟩

theorem reset_entry (p k : Fin 4) : s.reset.evictNext.entry p k = s.evictNext.entry p k := by
  obtain ⟨hmem, htext⟩ := reset_evictNext (s := s)
  have hhardware : s.reset.evictNext.hardware = s.evictNext.hardware := rfl
  simp only [Machine.entry, tableByte, byte, Machine.line, hmem, htext, hhardware]

theorem reset_reloads (p k : Fin 4) : Reloads s.reset p k ↔ Reloads s p k := by
  show Machine.Evictable s.reset s.victim s.victim ∧ (s.reset.evictNext.entry p k).pfn.toNat ≠ _ ↔ _
  rw [reset_entry]
  exact ⟨fun h => ⟨⟨h.1.search, h.1.entry, h.1.number⟩, h.2⟩,
    fun h => ⟨⟨h.1.search, h.1.entry, h.1.number⟩, h.2⟩⟩

theorem reset_reloadByte (p k : Fin 4) (o : Nat) :
    s.reset.reloadByte p k o = s.reloadByte p k o := by
  have hline := line_congr (reset_evictNext (s := s)).2
  have hcount : s.reset.evictNext.linecount = s.evictNext.linecount := rfl
  have hstack : s.reset.evictNext.stack = s.evictNext.stack := rfl
  rw [Machine.reloadByte, Machine.reloadByte, reset_entry, readPage, readPage, hline, hcount,
    hstack]

theorem bringBack_run (hused : ∀ i, s.freelist i = false) : (bringBack p.val).run s =
    (do freespace 1 p.val; loadPageTable p.val : M Int).run s.reset := by
  have hcount : s.reset.freeCount < 1 := by
    show s.freeCount < 1
    rw [Frames.freeCount_eq_zero hused]
    decide
  rw [bringBack, bind_of_ok (modify_run _), bind_of_ok get_run, if_pos hcount]

end Agree

/-- Page 0 of process 0 is on disk and writeable. -/
theorem fourProcesses_back : ∃ h s, memsim.RunIf (fun _ _ => True) h s ∧
    h.map Event.cmd = fourProcesses.reverse ∧ ((s.hardware 0).inmem = .file ∧
      wp (bringBack 0) (fun _ u => StoreAgrees u 0 0 ∧ LoadAgrees u 0 0) (fun _ _ => False) s) :=
  exists_run (fun _ _ => True) [] (by decide +kernel)

/-- The two results of a store, from `s` and from the state with the table brought back. -/
def StoreResults (s : Machine) (p : Fin 4) (vaddr : Fin 64) (val : UInt8)
    (away there : Option (Int × List Report)) : Prop :=
  wp (bringBack p.val) (fun _ u => observed ((exec (.store p vaddr val)).run s) = away ∧
    observed ((exec (.store p vaddr val)).run u) = there) (fun _ _ => False) s

instance (s : Machine) (p : Fin 4) (vaddr : Fin 64) (val : UInt8)
    (away there : Option (Int × List Report)) :
    Decidable (StoreResults s p vaddr val away there) := by
  unfold StoreResults
  infer_instance

theorem fourProcesses_results : ∃ h s, memsim.RunIf (fun _ _ => True) h s ∧
    h.map Event.cmd = fourProcesses.reverse ∧ ((s.hardware 0).inmem = .file ∧
      StoreResults s 0 16 7 (some (1, [.refused])) (some (0, [.refused]))) :=
  exists_run (fun _ _ => True) [] (by decide +kernel)

end Cs3013.Memory
