import Cs3013.Memory.Evictions

/-!
# One access in a sound state

What `map`, `store` and `load` do with a page table in memory, by the entry of the page, and
what they do for a page table in the file or none at all. The contents of a page follow the page
wherever it goes; only a store changes them.
-/
namespace Cs3013.Memory

open Cs3013.Library.Faulting Machine

/-- The page and the offset of a virtual address. -/
def vpage (vaddr : Fin 64) : Fin 4 := ⟨vaddr.val / 16, by omega⟩

def offset (vaddr : Fin 64) : Nat := vaddr.val % 16

theorem offset_lt (vaddr : Fin 64) : offset vaddr < 16 := Nat.mod_lt _ (by decide)

theorem vaddr_ext {v w : Fin 64} (hpage : vpage v = vpage w) (hoff : offset v = offset w) :
    v = w := by
  have hdiv : v.val / 16 = w.val / 16 := congrArg Fin.val hpage
  have hmod : v.val % 16 = w.val % 16 := hoff
  omega

/-! ## Writing an entry, writing a byte -/

section Writes

variable {s u : Machine} {p k d t : Fin 4}

/-- A change of the protection of a mapped page keeps the contents of all pages. -/
theorem protect_carried (howned : s.Owned) (hdisk : s.DiskOk) (h : Coherent s)
    (hp : s.TableAt p t) (hval : (s.entry p k).val ≠ 0) (prot : UInt8) :
    Carried True s (s.write (16 * t.val + 4 * k.val + 2) prot) := by
  have hbytes : ∀ q o, o < 16 →
      (s.write (16 * t.val + 4 * k.val + 2) prot).tableByte q o =
        if q = p ∧ o = 4 * k.val + 2 then prot else s.tableByte q o :=
    fun q o ho => tableByte_write howned hp (j := 4 * k.val + 2) (by omega) (by omega) _ ho
  have hother : ∀ d, (∀ q, ¬ s.TableAt q d) → ∀ o < 16,
      (s.write (16 * t.val + 4 * k.val + 2) prot).byte (16 * d.val + o) =
        s.byte (16 * d.val + o) := by
    intro d hd o ho
    have htd : t ≠ d := hp.ne hd
    rw [byte_write _ (by omega), if_neg (by omega)]
  have hrw : Rewrites s (s.write (16 * t.val + 4 * k.val + 2) prot) p k
      ⟨(s.entry p k).pfn, prot, (s.entry p k).val⟩ := by
    apply rewrites_of_bytes
    · intro q o ho hne
      rw [hbytes q o ho, if_neg]
      intro hqo
      exact hne ⟨hqo.1, by omega, by omega⟩
    · rw [hbytes p _ (by omega), if_neg (by omega)]
      rfl
    · rw [hbytes p _ (by omega), if_pos ⟨rfl, rfl⟩]
    · rw [hbytes p _ (by omega), if_neg (by omega)]
      rfl
  have hentry : ∀ q j, ((s.write (16 * t.val + 4 * k.val + 2) prot).entry q j).pfn =
      (s.entry q j).pfn ∧ ((s.write (16 * t.val + 4 * k.val + 2) prot).entry q j).val =
        (s.entry q j).val := by
    rw [hrw.entry]
    exact Entries.forall_set
      (P := fun q j y => y.pfn = (s.entry q j).pfn ∧ y.val = (s.entry q j).val) ⟨rfl, rfl⟩
      fun _ _ _ => ⟨rfl, rfl⟩
  refine ⟨⟨?_, ?_, ?_⟩, fun _ q j o ho => ?_, hdisk.congr rfl rfl rfl, .same rfl⟩
  · rw [hrw.entry]
    exact h.entries.protect hval prot
  · intro q j hq
    rw [hrw.vpn]
    exact h.vpn q j hq
  · intro d hd o ho
    rw [hother d (howned.not_table (howned.not_flagged_of_free hd)) o ho]
    exact h.free d hd o ho
  · obtain ⟨hpfn, hv⟩ := hentry q j
    unfold pageByte
    rw [hpfn, hv]
    by_cases h2 : (s.entry q j).val = 2
    · obtain ⟨d, hd, -, hflag⟩ := h.entries.present q j h2
      rw [if_pos h2, if_pos h2, hd, hother d (howned.not_table hflag) o ho]
    · rw [if_neg h2, if_neg h2]
      rfl

/-- A byte written to a present page changes this byte of the page and nothing else. -/
theorem write_present (howned : s.Owned) (h : Coherent s) (hval : (s.entry p k).val = 2)
    (hpfn : (s.entry p k).pfn.toNat = 16 * d.val) {o : Nat} (ho : o < 16) (x : UInt8) :
    Coherent (s.write (16 * d.val + o) x) ∧ ∀ q j o', o' < 16 →
      (s.write (16 * d.val + o) x).pageByte q j o' =
        if q = p ∧ j = k ∧ o' = o then x else s.pageByte q j o' := by
  obtain ⟨hpages, hflag⟩ := h.entries.present_at hval hpfn
  have hnot := howned.not_table hflag
  have ha : 16 * d.val + o < 64 := by omega
  have htable : ∀ q o', o' < 16 → (s.write (16 * d.val + o) x).tableByte q o' = s.tableByte q o' :=
    fun q o' ho' => tableByte_write_data howned hnot rfl ho x ho'
  have hentry : (s.write (16 * d.val + o) x).entry = s.entry := entry_congr htable
  constructor
  · constructor
    · rw [hentry]
      exact h.entries
    · intro q j hq
      rw [htable q _ (by omega)]
      exact h.vpn q j hq
    · intro d' hd' o' ho'
      have hne := howned.ne_of_used (by rw [hpages]; exact Frames.pages_ne_none p) hd'
      rw [byte_write _ ha, if_neg (by omega)]
      exact h.free d' hd' o' ho'
  · intro q j o' ho'
    by_cases hqj : q = p ∧ j = k
    · obtain ⟨rfl, rfl⟩ := hqj
      have hval' : ((s.write (16 * d.val + o) x).entry q j).val = 2 := by rw [hentry, hval]
      have hpfn' : ((s.write (16 * d.val + o) x).entry q j).pfn.toNat = 16 * d.val := by
        rw [hentry, hpfn]
      rw [pageByte_present hval' hpfn', pageByte_present hval hpfn, byte_write _ ha]
      apply if_congr _ rfl rfl
      simp only [true_and]
      omega
    · rw [if_neg fun hall => hqj ⟨hall.1, hall.2.1⟩]
      refine pageByte_congr (by rw [hentry]) (fun hval' => ?_) fun _ => rfl
      obtain ⟨d', hpfn', hpages', -⟩ := h.entries.present q j hval'
      have hne : d' ≠ d := by
        intro heq
        subst heq
        obtain rfl := Frames.pages_natCast_inj (hpages'.symm.trans hpages)
        have hsame : (s.entry q j).pfn = (s.entry q k).pfn :=
          UInt8.toNat_inj.mp (hpfn'.trans hpfn.symm)
        exact hqj ⟨rfl, h.entries.distinct q j k hval' hval hsame⟩
      rw [hpfn', byte_write _ ha, if_neg (by omega)]

end Writes

/-! ## With the page table in memory -/

section Resident

variable {s u : Machine} {p t i : Fin 4} {vaddr : Fin 64} {val : UInt8}

theorem convert_entry (hp : s.TableAt p t) (vaddr : Fin 64) :
    (convert vaddr.val p.val).run s = .ok (if (s.entry p (vpage vaddr)).val = 0 then -1
      else (s.entry p (vpage vaddr)).pfn.toNat + (offset vaddr : Nat)) s := by
  rw [convert_memory hp vaddr.isLt, Nat.add_assoc, Nat.add_assoc, ← tableByte_memory hp,
    ← tableByte_memory hp]
  rfl

theorem peek_val (hp : s.TableAt p t) (vaddr : Fin 64) :
    (peek (16 * t.val + 4 * (vaddr.val / 16 : Nat) + 3)).run s =
      .ok (s.entry p (vpage vaddr)).val s :=
  peek_valpres hp vaddr.isLt

theorem peek_prot (hp : s.TableAt p t) (vaddr : Fin 64) :
    (peek (16 * t.val + 4 * (vaddr.val / 16 : Nat) + 2)).run s =
      .ok (s.entry p (vpage vaddr)).prot s :=
  peek_entry hp vaddr.isLt (j := 2) (by decide) rfl

/-- `store`, by the entry of the page, whatever the tables hold. -/
theorem store_memory (hp : s.TableAt p t) (vaddr : Fin 64) (val : UInt8) :
    (store p.val vaddr.val val).run s =
      if (s.entry p (vpage vaddr)).val = 0 then .ok 0 (s.printed (.storeSegfault vaddr.val))
      else if (s.entry p (vpage vaddr)).prot = 1 then
        if (s.entry p (vpage vaddr)).pfn.toNat + offset vaddr < 64 then
          .ok 1 ((s.write ((s.entry p (vpage vaddr)).pfn.toNat + offset vaddr) val).printed
            (.stored val ((s.entry p (vpage vaddr)).pfn.toNat + offset vaddr : Nat)))
        else .error (.mem ((s.entry p (vpage vaddr)).pfn.toNat + offset vaddr : Nat)) s
      else .ok 0 (s.printed (.notWriteable vaddr.val)) := by
  have hpte : (16 * (t.val : Int) + 4 * (vaddr.val / 16 : Nat)) ≥ 0 := by omega
  rw [store, bind_of_ok (findpte_memory hp _), if_pos hpte, bind_of_ok (convert_entry hp vaddr)]
  by_cases h0 : (s.entry p (vpage vaddr)).val = 0
  · rw [if_pos h0, if_pos h0, if_pos (by decide)]
    rfl
  · have hpos : ¬ ((s.entry p (vpage vaddr)).pfn.toNat : Int) + (offset vaddr : Nat) < 0 := by omega
    rw [if_neg h0, if_neg h0, if_neg hpos, bind_of_ok (peek_prot hp vaddr)]
    by_cases h1 : (s.entry p (vpage vaddr)).prot = 1
    · rw [if_pos h1, if_pos h1, ← Int.natCast_add]
      by_cases ha : (s.entry p (vpage vaddr)).pfn.toNat + offset vaddr < 64
      · rw [if_pos ha, bind_of_ok (poke_of_lt ha val)]
        rfl
      · rw [if_neg ha, bind_run, poke_fault rfl (by omega)]
    · rw [if_neg h1, if_neg h1]
      rfl

/-- `load` of a page that was never mapped reads `mem[-1]`. -/
theorem load_absent (hp : s.TableAt p t) (h0 : (s.entry p (vpage vaddr)).val = 0) :
    (load p.val vaddr.val val).run s = .error (.mem (-1)) s := by
  have hpte : (16 * (t.val : Int) + 4 * (vaddr.val / 16 : Nat)) ≥ 0 := by omega
  rw [load, bind_of_ok (findpte_memory hp _), if_pos hpte, bind_of_ok (peek_val hp vaddr), h0,
    if_neg (by decide), if_neg (by decide), bind_of_ok (convert_entry hp vaddr), if_pos h0]
  rfl

/-- `load` of a page in memory, by any entry that is not 0 or 1. -/
theorem load_memory (hp : s.TableAt p t) (h0 : (s.entry p (vpage vaddr)).val ≠ 0)
    (h1 : (s.entry p (vpage vaddr)).val ≠ 1) :
    (load p.val vaddr.val val).run s =
      if (s.entry p (vpage vaddr)).pfn.toNat + offset vaddr < 64 then
        if (s.entry p (vpage vaddr)).val = 2 then .ok 1 (s.printed (.value vaddr.val
          (s.byte ((s.entry p (vpage vaddr)).pfn.toNat + offset vaddr))))
        else .ok 0 (s.printed (.notAllocated vaddr.val
          (s.byte ((s.entry p (vpage vaddr)).pfn.toNat + offset vaddr))))
      else .error (.mem ((s.entry p (vpage vaddr)).pfn.toNat + offset vaddr : Nat)) s := by
  have hpte : (16 * (t.val : Int) + 4 * (vaddr.val / 16 : Nat)) ≥ 0 := by omega
  have hconvert := convert_entry hp vaddr
  rw [if_neg h0, ← Int.natCast_add] at hconvert
  rw [load, bind_of_ok (findpte_memory hp _), if_pos hpte, bind_of_ok (peek_val hp vaddr),
    if_neg h1]
  by_cases h2 : (s.entry p (vpage vaddr)).val = 2
  · rw [if_pos h2, if_pos h2, bind_of_ok hconvert]
    by_cases ha : (s.entry p (vpage vaddr)).pfn.toNat + offset vaddr < 64
    · rw [if_pos ha, bind_of_ok (peek_of_lt ha)]
      rfl
    · rw [if_neg ha, bind_run, peek_fault rfl (by omega)]
  · rw [if_neg h2, if_neg h2, bind_of_ok hconvert]
    by_cases ha : (s.entry p (vpage vaddr)).pfn.toNat + offset vaddr < 64
    · rw [if_pos ha, bind_of_ok (peek_of_lt ha)]
      rfl
    · rw [if_neg ha, bind_run, peek_fault rfl (by omega)]

theorem load_present (hp : s.TableAt p t) (h2 : (s.entry p (vpage vaddr)).val = 2)
    (ha : (s.entry p (vpage vaddr)).pfn.toNat + offset vaddr < 64) :
    (load p.val vaddr.val val).run s = .ok 1 (s.printed (.value vaddr.val
      (s.byte ((s.entry p (vpage vaddr)).pfn.toNat + offset vaddr)))) := by
  rw [load_memory hp (by rw [h2]; decide) (by rw [h2]; decide), if_pos ha, if_pos h2]

/-- The frame that `p` takes for a page, and how it was freed. -/
theorem obtainFrame_ends (hs : Sound s) (hp : s.TableAt p t)
    (hflag : ∃ i, s.ispagetable i = false)
    (hfound : (∀ i, s.freelist i = false) → s.Found s.victim) :
    Ends (obtainFrame p.val) s fun r u => ∃ v i,
      Room ((∀ i, s.freelist i = false) → s.linecount < 256) s v p t i ∧ r = 16 * i.val ∧
        u = v.withFrames (v.toFrames.take i) := by
  cases hfind : frameList.find? s.freelist with
  | some i =>
    have hpos : ¬ (16 * (i.val : Int)) < 0 := by omega
    apply wp_step (findfree_some hfind)
    rw [if_neg hpos]
    exact ⟨s, i, .there hs hp hfind, rfl, rfl⟩
  | none =>
    have hused := Frames.used_of_find?_none hfind
    obtain ⟨i, hi⟩ := hflag
    have hvictim := Frames.victim_not_flagged hi
    apply wp_step (findfree_none hfind)
    rw [if_pos (by decide)]
    refine wp_seq (freespace_ends hs hused hvictim (hfound hused) p) fun _ u hu => ?_
    obtain ⟨hframes, hmoved⟩ := hu
    have hfree : frameList.find? u.freelist = some s.victim := by
      rw [hframes]
      exact Frames.find?_evict hused
    apply wp_step (findfree_some hfree)
    apply wp_step (note_ok _)
    have hnoted : Moved (s.linecount < 256) s (u.noted (.findfree (16 * s.victim.val))) := by
      have hturn : Swapped True u (u.noted (.findfree (16 * s.victim.val))) :=
        .of_turn hmoved.coherent u.roundrobin rfl (fun _ => rfl) rfl rfl
      exact ⟨(hmoved.toSwapped.trans hturn).mono fun h => ⟨h, trivial⟩,
        hmoved.disk.congr rfl rfl rfl, hmoved.quiet⟩
    exact ⟨u.noted (.findfree (16 * s.victim.val)), s.victim,
      .made hs hp hused hvictim hframes (hnoted.mono fun h => h hused), rfl, rfl⟩

/-- What `map` does with the frame that it has obtained. -/
theorem mapPage_obtained {Q : Int → Machine → Prop} {E : Fault → Machine → Prop}
    (hp : s.TableAt p t) (hval : (s.entry p (vpage vaddr)).val ≠ 2)
    (hobtain : wp (obtainFrame p.val) (fun r u => ∃ i : Fin 4, r = 16 * i.val ∧
      Q 1 (((((u.withFrames (u.toFrames.enter i p)).printed
        (.pageAllocated (u.byte (16 * t.val + 4 * (vaddr.val / 16))) (16 * i.val))).write
          (16 * t.val + 4 * (vaddr.val / 16) + 1) (UInt8.ofNat (16 * i.val))).write
            (16 * t.val + 4 * (vaddr.val / 16) + 2) val).write
              (16 * t.val + 4 * (vaddr.val / 16) + 3) 2)) E s) :
    wp (mapPage p.val vaddr.val val) Q E s := by
  apply wp_step (findpte_memory hp vaddr.val)
  apply wp_step (peek_val hp vaddr)
  rw [if_neg hval]
  apply wp_seq hobtain
  intro _ u hu
  obtain ⟨i, rfl, hQ⟩ := hu
  have haddr : UInt8.ofInt (16 * (i.val : Int)) = UInt8.ofNat (16 * i.val) := by
    exact_mod_cast ofInt_natCast (16 * i.val)
  apply wp_step (setPages_ok i _)
  apply wp_step (peek_eq (a := 16 * t.val + 4 * (vaddr.val / 16)) (by push_cast; rfl) (by omega))
  apply wp_step (say_ok _)
  apply wp_step (poke_eq (a := 16 * t.val + 4 * (vaddr.val / 16) + 1) (by push_cast; rfl)
    (by omega) _)
  apply wp_step (poke_eq (a := 16 * t.val + 4 * (vaddr.val / 16) + 2) (by push_cast; rfl)
    (by omega) _)
  apply wp_step (poke_eq (a := 16 * t.val + 4 * (vaddr.val / 16) + 3) (by push_cast; rfl)
    (by omega) _)
  rw [haddr]
  exact hQ

/-- A page that is not present is mapped into a frame that has been freed. -/
theorem mapPage_absent {c : Prop} {s₀ : Machine} (hs : Ends (obtainFrame p.val) s fun r u =>
      ∃ v i, Room c s₀ v p t i ∧ r = 16 * i.val ∧ u = v.withFrames (v.toFrames.take i))
    (hp : s.TableAt p t) (hval : (s.entry p (vpage vaddr)).val ≠ 2) :
    Ends (mapPage p.val vaddr.val val) s fun _ u => ∃ v i, Room c s₀ v p t i ∧
      u = v.mappedPage p t i (vaddr.val / 16) val := by
  apply mapPage_obtained hp hval
  apply wp_imp hs
  intro _ u hu
  obtain ⟨v, i, hroom, rfl, rfl⟩ := hu
  exact ⟨i, rfl, v, i, hroom, rfl⟩

/-- The page that `map` adds is empty, so that a page on disk loses its contents. -/
theorem Room.mapped_page {c : Prop} {k : Fin 4} {v : Machine} (h : Room c s v p t i) {o : Nat}
    (ho : o < 16) : (v.mappedPage p t i k.val val).pageByte p k o = 0 := by
  have hfree := Frames.free_of_find?_some h.free
  have hgives := mappedPage_gives h.owned h.table hfree (k := k) h.moved.coherent val
  rw [hgives.pageByte_self ho, Page.byte_zero]

theorem Room.mapped {c : Prop} {k : Fin 4} {v : Machine} (h : Room c s v p t i)
    (hzero : c → ∀ o < 16, s.pageByte p k o = 0) :
    Carried c s (v.mappedPage p t i k.val val) := by
  have hfree := Frames.free_of_find?_some h.free
  have hgives := mappedPage_gives h.owned h.table hfree (k := k) h.moved.coherent val
  refine ⟨hgives.coherent h.owned h.moved.coherent hfree, fun hc q j o ho => ?_, ?_, ?_⟩
  · rw [← h.moved.contents hc q j o ho]
    by_cases hqj : q = p ∧ j = k
    · obtain ⟨rfl, rfl⟩ := hqj
      rw [h.mapped_page ho, h.moved.contents hc q j o ho, hzero hc o ho]
    · exact hgives.pageByte_other h.owned h.moved.coherent hfree hqj ho
  · exact h.moved.disk.congr rfl rfl rfl
  · apply h.moved.quiet.trans
    apply Quiet.of_out (l := [.pageAllocated (v.byte (16 * t.val + 4 * k.val)) (16 * i.val)]) rfl
    simp [Message.Access]

/-- `map` of a page that is present changes its protection at most. -/
theorem mapPage_present (howned : s.Owned) (hdisk : s.DiskOk) (h : Coherent s)
    (hp : s.TableAt p t) (hval : (s.entry p (vpage vaddr)).val = 2) :
    Ends (mapPage p.val vaddr.val val) s fun _ u => Carried True s u := by
  apply wp_step (findpte_memory hp vaddr.val)
  apply wp_step (peek_val hp vaddr)
  rw [if_pos hval]
  apply wp_step (peek_prot hp vaddr)
  by_cases hprot : (s.entry p (vpage vaddr)).prot = val
  · rw [if_pos hprot]
    apply wp_step (say_ok _)
    exact ((Moved.refl hdisk h).printed (by simp [Message.Access])).carried
  · rw [if_neg hprot]
    apply wp_step (say_ok _)
    apply wp_step (poke_eq (a := 16 * t.val + 4 * (vaddr.val / 16) + 2) (by push_cast; rfl)
      (by omega) _)
    have hmoved : Moved True s (s.printed .altered) :=
      (Moved.refl hdisk h).printed (by simp [Message.Access])
    have hne : (s.entry p (vpage vaddr)).val ≠ 0 := by
      rw [hval]
      decide
    have hprotect := protect_carried (s := s.printed .altered) (p := p) (k := vpage vaddr)
      howned hmoved.disk hmoved.coherent hp hne val
    exact ⟨hprotect.coherent, fun _ q j o ho => (hprotect.contents trivial q j o ho).trans
      (hmoved.contents trivial q j o ho), hprotect.disk, hmoved.quiet.trans hprotect.quiet⟩

/-- A page on disk comes back with its contents, and `load` reports the byte. -/
theorem Room.loaded {c : Prop} {v : Machine} (h : Room c s v p t i) (hi : i ≠ 0)
    (hval : (s.entry p (vpage vaddr)).val = 1) :
    Ends (do
      let _ ← loadPage p.val vaddr.val
      let paddr ← convert vaddr.val p.val
      if paddr > 0 then
        say (.value vaddr.val (← peek paddr))
        return 1
      else
        return 0 : M Int) v fun _ w => ∃ u, Carried c s u ∧
          w = u.printed (.value vaddr.val (u.pageByte p (vpage vaddr) (offset vaddr))) := by
  have hfree := Frames.free_of_find?_some h.free
  have hne : (s.entry p (vpage vaddr)).val ≠ 2 := by
    rw [hval]
    decide
  have hentry := h.moved.entry p (vpage vaddr) hne
  have hone : (v.entry p (vpage vaddr)).val = 1 := by rw [hentry, hval]
  have hline := h.moved.coherent.entries.onDisk p (vpage vaddr) hone
  have hpfn : (v.byte (16 * t.val + 4 * (vaddr.val / 16) + 1)).toNat =
      (v.entry p (vpage vaddr)).pfn.toNat := by
    rw [Nat.add_assoc, ← tableByte_memory h.table]
    rfl
  have hgives := loadedPage_gives h.owned h.table hfree (k := vpage vaddr)
    (v.entry p (vpage vaddr)).pfn.toNat
  have hcoh := hgives.coherent h.owned h.moved.coherent hfree
  apply wp_step (loadPage_ok h.table vaddr.isLt hpfn hline h.moved.disk.file h.free)
  generalize hu : v.loadedPage p t i (vaddr.val / 16) (v.entry p (vpage vaddr)).pfn.toNat = u
  rw [show v.loadedPage p t i (vpage vaddr).val (v.entry p (vpage vaddr)).pfn.toNat = u from hu]
    at hgives hcoh
  have htable : u.TableAt p t := by
    rw [hgives.frames]
    exact h.table
  have hbase : (u.entry p (vpage vaddr)).pfn.toNat = 16 * i.val := by
    rw [hgives.rewrites.entry, Entries.set_self, UInt8.toNat_ofNat']
    omega
  have hpresent : (u.entry p (vpage vaddr)).val = 2 := by
    rw [hgives.rewrites.entry, Entries.set_self]
  have hpos : 0 < i.val := Nat.pos_of_ne_zero fun hv => hi (Fin.ext hv)
  have hoff := offset_lt vaddr
  have hconvert : (convert vaddr.val p.val).run u = .ok (16 * i.val + offset vaddr : Nat) u := by
    rw [convert_entry htable, hpresent, hbase]
    rfl
  have hbyte : u.byte (16 * i.val + offset vaddr) =
      u.pageByte p (vpage vaddr) (offset vaddr) := (pageByte_present hpresent hbase _).symm
  apply wp_step hconvert
  rw [if_pos (by omega)]
  apply wp_step (peek_of_lt (by omega))
  apply wp_step (say_ok _)
  rw [wp_pure, hbyte]
  refine ⟨u, ⟨hcoh, fun hc q j o ho => ?_, ?_, ?_⟩, rfl⟩
  · rw [← h.moved.contents hc q j o ho]
    by_cases hqj : q = p ∧ j = vpage vaddr
    · obtain ⟨rfl, rfl⟩ := hqj
      rw [hgives.pageByte_self ho, pageByte_onDisk hone]
    · exact hgives.pageByte_other h.owned h.moved.coherent hfree hqj ho
  · rw [← hu]
    exact h.moved.disk.congr rfl rfl rfl
  · apply h.moved.quiet.trans
    apply Quiet.of_out (l := [.pageLoaded (vaddr.val / 16) p.val (16 * i.val)])
    · rw [← hu]
      rfl
    · simp [Message.Access]

theorem Sound.free_ne_zero (hs : Sound s) (hp : s.TableAt p t) (hi : s.freelist i = true) :
    i ≠ 0 :=
  hs.kept.data_ne_zero hp (hs.kept.owned.not_flagged_of_free hi)

/-- `load` of a page on disk, with a frame that is free or can be freed. -/
theorem load_onDisk (hs : Sound s) (hp : s.TableAt p t) (hflag : ∃ i, s.ispagetable i = false)
    (hfound : (∀ i, s.freelist i = false) → s.Found s.victim)
    (hval : (s.entry p (vpage vaddr)).val = 1) :
    Ends (load p.val vaddr.val val) s fun _ w => ∃ u,
      Carried ((∀ i, s.freelist i = false) → s.linecount < 256) s u ∧
        w = u.printed (.value vaddr.val (u.pageByte p (vpage vaddr) (offset vaddr))) := by
  have hpte : (16 * (t.val : Int) + 4 * (vaddr.val / 16 : Nat)) ≥ 0 := by omega
  apply wp_step (findpte_memory hp vaddr.val)
  rw [if_pos hpte]
  apply wp_step (peek_val hp vaddr)
  rw [if_pos hval]
  apply wp_step get_run
  cases hfind : frameList.find? s.freelist with
  | some i =>
    rw [if_pos (any_of_find?_some hfind)]
    have hi := hs.free_ne_zero hp (Frames.free_of_find?_some hfind)
    exact (Room.there hs hp hfind).loaded hi hval
  | none =>
    have hused := Frames.used_of_find?_none hfind
    obtain ⟨i, hi⟩ := hflag
    have hvictim := Frames.victim_not_flagged hi
    rw [if_neg (not_any_of_used hused)]
    refine wp_seq (freespace_ends hs hused hvictim (hfound hused) p) fun _ u hu => ?_
    obtain ⟨hframes, hmoved⟩ := hu
    have hroom : Room ((∀ i, s.freelist i = false) → s.linecount < 256) s u p t s.victim :=
      .made hs hp hused hvictim hframes (hmoved.mono fun h => h hused)
    exact hroom.loaded (hs.kept.data_ne_zero hp hvictim) hval

end Resident

/-! ## With the page table in the file -/

section OnFile

variable {s : Machine} {p : Fin 4} {vaddr : Fin 64} {val : UInt8}

/-- The pages of a process without a table in memory are not present. -/
theorem Sound.not_present (hs : Sound s) (hin : (s.hardware p).inmem ≠ .memory) (k : Fin 4) :
    (s.entry p k).val ≠ 2 := by
  intro hval
  obtain ⟨d, -, hpages, -⟩ := hs.coherent.entries.present p k hval
  obtain ⟨q, t, hq, ht⟩ := hs.kept.owned.owner d (by rw [hpages]; exact Frames.pages_ne_none p)
  obtain rfl := Frames.pages_natCast_inj (hpages.symm.trans hq)
  exact hin ht.inmem

theorem Sound.absent (hs : Sound s) (hin : (s.hardware p).inmem ≠ .memory) {k : Fin 4}
    (h1 : (s.entry p k).val ≠ 1) : (s.entry p k).val = 0 := by
  rcases hs.coherent.entries.range p k with h | h | h
  · exact h
  · exact absurd h h1
  · exact absurd h (hs.not_present hin k)

/-- The page table comes back with all its entries. -/
theorem fetchTable_ends (hs : Sound s) (hin : (s.hardware p).inmem = .file)
    (hfound : s.Found s.victim) :
    Ends (do freespace 1 p.val; loadPageTable p.val : M Int) s fun _ u =>
      u.TableAt p s.victim ∧ Moved (s.linecount < 256) s u := by
  have hfull := Frames.Stage.full (.inl hs.kept) hin
  obtain ⟨i, hi⟩ := hfull.owned.exists_not_flagged (p := p) (by rw [hin]; decide)
  have hvictim := Frames.victim_not_flagged hi
  refine wp_seq (freespace_ends hs hfull.used hvictim hfound p) fun _ u hu => ?_
  obtain ⟨hframes, hmoved⟩ := hu
  have hin' : (u.hardware p).inmem = .file := by
    rw [hframes]
    exact hin
  obtain ⟨n, hn, hline⟩ := hmoved.disk.line p hin'
  have hfree : frameList.find? u.freelist = some s.victim := by
    rw [hframes]
    exact Frames.find?_evict hfull.used
  have howned : u.Owned := by
    rw [hframes]
    exact hfull.owned.evict hvictim
  rw [wp_of_ok (loadPageTable_ok hline hn hmoved.disk.file hfree)]
  have hload : Moved True u (u.loadTable p s.victim n) :=
    ⟨loadTable_swapped howned hmoved.coherent hline (Frames.free_of_find?_some hfree),
      loadTable_disk hmoved.disk,
      .of_out (l := [.tableLoaded p.val (16 * s.victim.val)]) rfl (by simp [Message.Access])⟩
  exact ⟨Frames.giveTable_tableAt, (hmoved.trans hload).mono fun h => ⟨h, trivial⟩⟩

/-- An access to a page that was never mapped only brings the page table back. -/
theorem command_absent (access : Access) (hs : Sound s) (hin : (s.hardware p).inmem = .file)
    (hfound : s.Found s.victim) (h0 : (s.entry p (vpage vaddr)).val = 0) :
    Ends (command access p.val vaddr.val val) s fun _ u => Carried (s.linecount < 256) s u := by
  have hfull := Frames.Stage.full (.inl hs.kept) hin
  have hspace : ((s.freeCount : Nat) : Int) = 0 := by
    rw [Frames.freeCount_eq_zero hfull.used]
    rfl
  have hfetch : Ends (fetch p.val vaddr.val) s fun _ u =>
      u.TableAt p s.victim ∧ Moved (s.linecount < 256) s u := by
    apply wp_step get_run
    apply wp_step (hardwareOf_ok p)
    rw [hspace, if_pos hin, if_pos (by decide), ← bind_assoc]
    refine wp_seq (fetchTable_ends hs hin hfound) fun _ u hu => ?_
    have hentry := hu.2.entry p (vpage vaddr) (by rw [h0]; decide)
    apply wp_step (findpte_memory hu.1 vaddr.val)
    apply wp_step (peek_val hu.1 vaddr)
    rw [hentry, h0, if_neg (by decide)]
    exact hu
  refine wp_seq hfetch fun _ u hu => ?_
  obtain ⟨htable, hmoved⟩ := hu
  have hentry := hmoved.entry p (vpage vaddr) (by rw [h0]; decide)
  cases access with
  | s =>
    have hprot : (u.entry p (vpage vaddr)).prot = 0 := by
      rw [hentry]
      exact hs.coherent.entries.absent p _ h0
    apply wp_step (findpte_memory htable vaddr.val)
    apply wp_step (peek_prot htable vaddr)
    rw [hprot, if_neg (by decide)]
    exact (hmoved.printed (m := .notWriteable vaddr.val) (by simp [Message.Access])).carried
  | l =>
    apply wp_step (convert_entry htable vaddr)
    rw [hentry, if_pos h0, if_neg (by decide)]
    exact hmoved.carried

end OnFile

/-! ## Without a page table -/

section Unset

variable {s : Machine} {p : Fin 4}

/-- A frame is left for the page that the new table is created for. -/
theorem Frames.Roomy.owned_giveTable {f : Frames} {i : Fin 4} (h : f.Roomy p)
    (hi : frameList.find? f.freelist = some i) :
    (f.giveTable i p).Owned ∧ ∃ j, frameList.find? (f.giveTable i p).freelist = some j := by
  obtain ⟨a, b, hne, hfree⟩ := h.free
  obtain ⟨i', j, hi', hj, -⟩ := Frames.find?_two hne hfree
  obtain rfl : i = i' := Option.some_inj.mp (hi.symm.trans hi')
  exact ⟨h.owned.giveTable h.unset (h.owned.not_flagged_of_free (Frames.free_of_find?_some hi)),
    j, hj⟩

/-- A new page table, once there is room. -/
theorem newTable_room {c : Prop} {u : Machine} {i j : Fin 4} (hmoved : Moved c s u)
    (howned : u.Owned) (hin : (u.hardware p).inmem = .unset)
    (hi : frameList.find? u.freelist = some i)
    (hj : frameList.find? (u.toFrames.giveTable i p).freelist = some j) :
    Room c s (u.newTable p i) p i j := by
  have hfree := Frames.free_of_find?_some hi
  have hnew : Moved True u (u.newTable p i) := by
    refine ⟨newTable_swapped howned hmoved.coherent hin hfree, newTable_disk hmoved.disk, ?_⟩
    exact .of_out (newTable_out u p i) (by simp [Message.Access])
  have hframes := newTable_toFrames u p i
  refine ⟨(hmoved.trans hnew).mono fun h => ⟨h, trivial⟩, ?_, ?_, ?_⟩
  · rw [hframes]
    exact howned.giveTable (by rw [hin]; decide) (howned.not_flagged_of_free hfree)
  · rw [hframes]
    exact Frames.giveTable_tableAt
  · rw [hframes]
    exact hj

/-- `map` makes a page table and finds a second frame free behind it. -/
theorem mapTable_unset (hs : Sound s) (hcalls : s.CallsOk) (hin : (s.hardware p).inmem = .unset)
    (hfound : s.FoundAll s.roomVictims) (vaddr : Nat) :
    Ends (mapTable p.val vaddr) s fun _ u =>
      ∃ i j, Room (Fits s.linecount s.roomVictims) s u p i j := by
  apply wp_step (findpte_unset hin vaddr)
  rw [if_pos rfl]
  by_cases hstart : s.toFrames = Frames.start
  · have hcount : 2 ≤ s.freeCount := by
      rw [hstart]
      decide
    have hfree : frameList.find?
        (s.withFrames (s.toFrames.turnTo (s.roundrobin + 1))).freelist = some 0 := by
      rw [withFrames_toFrames, hstart]
      rfl
    apply wp_step (freespace_none hcount)
    rw [wp_of_ok (newTable_ok hfree)]
    refine ⟨0, 1, newTable_room (.turn hs.disk hs.coherent _) (hs.kept.owned.turnTo _) hin hfree ?_⟩
    rw [withFrames_toFrames, hstart]
    exact (congrArg (fun f => frameList.find? f.freelist) (Frames.start_giveTable p)).trans
      (Frames.starting_find? p 1)
  · refine wp_seq (wp_mono (wp_and (roomFor_ends (p := p) hs hin hfound)
      (freespace_roomy hs.disk hcalls hs.kept hstart hin)) (fun _ _ h => h) fun _ _ h => h.1)
      fun _ u hu => ?_
    obtain ⟨⟨hmoved, hsame⟩, hroomy, -, -⟩ := hu
    obtain ⟨i, hi, -⟩ := hroomy.full
    obtain ⟨-, j, hj⟩ := hroomy.owned_giveTable hi
    rw [wp_of_ok (newTable_ok hi)]
    exact ⟨i, j, newTable_room hmoved hroomy.owned (by rw [hsame]; exact hin) hi hj⟩

end Unset

end Cs3013.Memory
