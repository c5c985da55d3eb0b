import Cs3013.Memory.Idempotence
import Cs3013.Memory.Journal
import Cs3013.Memory.TableTrip

/-!
# Page tables on their way

A page table goes to the file for the page table of another process only, and while one is there
the other three processes have theirs in memory. So no second one follows, in no run: the first
page table of the last process sends one table away, and the next command of its owner brings it
back for good.
-/
namespace Cs3013.Memory

open Function Cs3013.Library.Faulting Cs3013.Library.Transition Machine

/-! ## The commands of a process whose page table is in the file -/

section Returning

variable {s : Machine} {p : Fin 4} {vaddr : Nat} {val : UInt8}

/-- `freespace(1,pid); loadPageTable(pid);` -/
theorem fetchTable_enters (hfull : s.Full) (p : Fin 4) :
    Enters (do freespace 1 p.val; loadPageTable p.val : M Int) s fun a _ l =>
      l = [.frameSwapped s.victim.val (s.linecount + 1), .tableLoaded p.val a] := by
  apply (freespace_enters hfull.ready hfull.used p).bind
  intro _ u l _ hpost
  apply (loadPageTable_enters (p.val : Int)).mono
  intro a v l' _ hl'
  rw [hpost.2, hl']
  rfl

/-- The page table of `p` has come back, and no other one has moved. -/
def CameBack (s u : Machine) (p : Fin 4) (l : List Message) : Prop :=
  ∃ a, tableMoves l = [.tableLoaded p.val a] ∧ u.residency = update s.residency p .memory

theorem CameBack.of_hardware {u v : Machine} {l l' : List Message} (h : CameBack s u p l)
    (hl : tableMoves l' = []) (hv : v.hardware = u.hardware) : CameBack s v p (l ++ l') := by
  obtain ⟨a, hmoves, hresidency⟩ := h
  refine ⟨a, by rw [tableMoves_append, hmoves, hl, List.append_nil], ?_⟩
  rw [← hresidency]
  funext q
  rw [residency, residency, hv]

/-- A frame that is given to the page table of `p`. -/
theorem residency_giveTable {u v : Machine} {i : Fin 4} (hu : u.hardware = s.hardware)
    (hv : v.toFrames = u.toFrames.giveTable i p) : v.residency = update s.residency p .memory := by
  funext q
  rw [residency, hv]
  by_cases hqp : q = p
  · subst hqp
    rw [update_self]
    exact Frames.giveTable_tableAt.inmem
  · rw [update_of_ne hqp, residency, ← hu]
    exact congrArg Hp.inmem (update_of_ne hqp _ _)

theorem Fetched.returned {u : Machine} (hu : Fetched s u p) {a : Int} {l : List Message}
    (hl : tableMoves l = [.tableLoaded p.val a]) : CameBack s u p l :=
  ⟨a, hl, residency_giveTable (u := s.withFrames (s.toFrames.evict s.victim)) rfl hu.frames⟩

theorem fetch_enters (hdisk : s.DiskOk) (hcalls : s.CallsOk) (hstage : s.Stage)
    (hin : (s.hardware p).inmem = .file) (hv : vaddr < 64) :
    Enters (fetch p.val vaddr) s fun _ u l => CameBack s u p l := by
  have hfull := hstage.full hin
  have hspace : ((s.freeCount : Nat) : Int) = 0 := by
    rw [Frames.freeCount_eq_zero hfull.used]
    rfl
  refine .step get_run rfl (.step (hardwareOf_ok p) rfl ?_)
  rw [hspace, if_pos hin, if_pos (by decide), ← bind_assoc]
  apply ((fetchTable_enters hfull p).and (fetchTable_yields hdisk hcalls hfull hin)).bind
  intro a u l _ hpost
  obtain ⟨hl, ⟨rfl, hu⟩, -⟩ := hpost
  have hreturned : CameBack s u p l := hu.returned (by rw [hl]; rfl)
  have ht : u.TableAt p s.victim := by
    rw [hu.frames]
    exact Frames.giveTable_tableAt
  refine .step (findpte_memory ht vaddr) rfl (.step (peek_valpres ht hv) rfl ?_)
  have hfull' : u.Full := by
    rw [hu.frames]
    exact (hfull.fetch hin).1
  by_cases hpage : u.valpres p vaddr = 1
  · rw [if_pos hpage, if_pos (by decide)]
    apply (freespace_enters hfull'.ready hfull'.used p).bind
    intro _ v l' _ hpost
    obtain ⟨hframes, hl'⟩ := hpost
    have hpage : Enters (loadPage p.val vaddr >>= fun _ => pure ()) v fun _ w k =>
        k = [] ∧ w.hardware = v.hardware := by
      apply Enters.mono (Enters.and (Q := fun _ _ k => k = [])
        (.of_still ((still_loadPage p.val vaddr).bind fun _ => .pure _) fun _ _ => rfl)
        (((saves_framed.evolves_loadPage p.val vaddr).bind fun _ => .pure _) v))
      intro _ w k _ hk
      exact ⟨hk.1, hk.2.1⟩
    apply hpage.mono
    intro _ w k _ hk
    apply hreturned.of_hardware
    · rw [hk.1, hl']
      rfl
    · rw [hk.2, hframes]
      rfl
  · rw [if_neg hpage]
    exact .pure (by rwa [List.append_nil])

theorem command_enters (access : Access) (hdisk : s.DiskOk) (hcalls : s.CallsOk)
    (hstage : s.Stage) (hin : (s.hardware p).inmem = .file) (hv : vaddr < 64) :
    Enters (command access p.val vaddr val) s fun _ u l => CameBack s u p l := by
  apply (fetch_enters hdisk hcalls hstage hin hv).idle
  · intro _
    cases access with
    | s =>
      refine (findpte_preserves _ _).bind fun pte => (peek_preserves _).bind fun _ => ?_
      refine .ite ((convert_preserves _ _).bind fun paddr => ?_) (idle_say rfl)
      exact (idle_poke _ _).bind fun _ => idle_say rfl
    | l =>
      refine (convert_preserves _ _).bind fun paddr => .ite ?_ (.pure _)
      exact (peek_preserves _).bind fun _ => idle_say rfl
  · intro u v l hframes hreturned
    have h : CameBack s v p (l ++ []) := hreturned.of_hardware rfl (by rw [hframes])
    rwa [List.append_nil] at h

theorem mapTable_returns (hdisk : s.DiskOk) (hcalls : s.CallsOk) (hstage : s.Stage)
    (hin : (s.hardware p).inmem = .file) :
    Enters (mapTable p.val vaddr) s fun _ u l => CameBack s u p l := by
  have hmoves : Enters (mapTable p.val vaddr) s fun _ _ l =>
      ∃ a, tableMoves l = [.tableLoaded p.val a] := by
    refine .step (findpte_file hin vaddr) rfl ?_
    rw [if_neg (by decide)]
    refine .step (findpte_file hin vaddr) rfl ?_
    rw [if_pos rfl, ← bind_assoc]
    apply (fetchTable_enters (hstage.full hin) p).bind
    intro a u l _ hl
    have hrest : Still (do
        setPages a p.val
        setIspagetable a true
        say (.tableLoadedFor p.val a)) :=
      (still_setPages _ _).bind fun _ => (still_setIspagetable _ _).bind fun _ => still_say rfl
    refine .of_still hrest fun _ _ => ⟨a, ?_⟩
    rw [hl]
    rfl
  apply (hmoves.and (mapTable_yields hdisk hcalls hstage)).mono
  intro _ u l _ hpost
  obtain ⟨⟨a, hl⟩, hmapped, -⟩ := hpost
  cases hmapped with
  | there t ht => cases hin.symm.trans ht.inmem
  | fetched _ hu => exact hu.returned hl
  | first h => cases hin.symm.trans (congrArg (fun f => (f.hardware p).inmem) h)
  | created f i h => cases hin.symm.trans h

/-- `map` of a process whose page table is in the file. -/
theorem map_returns (hdisk : s.DiskOk) (hcalls : s.CallsOk) (hstage : s.Stage)
    (hin : (s.hardware p).inmem = .file) (hv : vaddr < 64) :
    Enters (map p.val vaddr val) s fun _ u l => CameBack s u p l := by
  apply ((mapTable_returns hdisk hcalls hstage hin).and
    (mapTable_yields hdisk hcalls hstage)).bind
  intro _ u l _ hpost
  obtain ⟨hreturned, hmapped, hdisk', hcalls'⟩ := hpost
  obtain ⟨hready, t, ht⟩ := hmapped.ready hstage
  apply ((mapPage_enters hready ht hv).and (mapPage_yields hdisk' hcalls' hready ht hv)).mono
  intro _ v l' _ hpost
  obtain ⟨hl', hframes, -⟩ := hpost
  apply hreturned.of_hardware
  · rw [hl']
    split_ifs
    · rfl
    · exact tableMoves_supplied
  · rw [hframes]
    split_ifs
    · rfl
    · exact Frames.supply_hardware _ _

end Returning

/-! ## A new page table -/

section Creating

variable {s : Machine} {p q : Fin 4} {vaddr : Nat} {val : UInt8}

/-- No page table has moved, or one has gone to the file. -/
def Displaced (s u : Machine) (l : List Message) : Prop :=
  tableMoves l = [] ∧ u.residency = s.residency ∨
    ∃ r : Fin 4, s.residency r = .memory ∧ tableMoves l = [.tableSwapped r.val] ∧
      u.residency = update s.residency r .file

theorem Displaced.of_frames {u : Machine} {l : List Message} (hl : tableMoves l = [])
    (hu : u.hardware = s.hardware) : Displaced s u l := by
  refine .inl ⟨hl, funext fun q => ?_⟩
  rw [residency, residency, hu]

theorem freespace_starting_enters
    (h : s.toFrames = Frames.starting q 2 ∨ s.toFrames = Frames.starting q 3) :
    Enters (freespace 2 p.val) s fun _ u l => Displaced s u l := by
  rcases h with h | h
  · have hcount : s.freeCount = 2 := by
      rw [h]
      exact Frames.starting_freeCount q 2
    exact .of_run (freespace_none hcount.ge) rfl (.of_frames rfl rfl)
  · have hcount : s.freeCount + 1 = 2 := by
      rw [h]
      exact congrArg (· + 1) (Frames.starting_freeCount q 3)
    have howned : s.Owned := by
      rw [h]
      exact Frames.starting_owned q (by decide)
    have hq : s.TableAt q 0 := by
      rw [h]
      exact Frames.starting_tableAt q 3
    have hpages : s.pages s.victim = q.val := by
      rw [h]
      rfl
    apply Enters.congr (freespace_one hcount (howned.ownFlagged p))
    apply (swapOutAt_enters hpages hq).mono
    intro _ u l _ hpost
    refine .of_frames ?_ ?_
    · rw [hpost.2]
      rfl
    · rw [hpost.1]
      rfl

/-- With one page left among three page tables, the table behind it goes to the file. -/
theorem freespace_only_enters (h : s.Full) (hin : (s.hardware p).inmem = .unset)
    (honly : ∀ i, i ≠ s.victim → s.ispagetable i = true) :
    Enters (freespace 2 p.val) s fun _ u l => Displaced s u l := by
  have hcount : s.freeCount + 2 = 2 := by rw [Frames.freeCount_eq_zero h.used]
  have hsucc : ∀ d : Fin 4, d + 1 ≠ d := by decide
  obtain ⟨q, t, hq, ht⟩ := h.owned.owner_of_used (h.used s.victim)
  obtain ⟨i, hi⟩ := h.owned.exists_not_flagged (Frames.not_memory_of_unset hin)
  have hvictim := Frames.victim_not_flagged hi
  obtain ⟨r, hr⟩ := h.owned.flagged _ (honly _ (hsucc s.victim))
  have hother : s.hardware p ≠ ⟨16 * (s.victim + 1 : Fin 4).val, .memory⟩ := by
    intro hself
    cases (congrArg Hp.inmem hself).symm.trans hin
  apply Enters.congr
    (freespace_table hcount (h.owned.ownFlagged p) hvictim honly hq ht hother)
  rw [(h.owned.table r _ hr).2]
  apply (swapOutAt_enters hq ht).bind
  intro _ u l _ hpost
  obtain ⟨hu, hl⟩ := hpost
  have hr' : u.TableAt r (s.victim + 1) := by
    rw [hu]
    exact hr
  apply (removePageTable_enters hr').bind
  intro _ v l' _ hpost
  obtain ⟨hv, hl'⟩ := hpost
  have hself : v.hardware r = ⟨u.linecount, .file⟩ := by
    rw [hv]
    exact update_self _ _ _
  have hrest : ∀ q, q ≠ r → v.hardware q = s.hardware q := by
    intro q hqr
    rw [hv, hu]
    exact update_of_ne hqr _ _
  refine .of_run robin_ok rfl (.inr ⟨r, hr.inmem, ?_, ?_⟩)
  · rw [hl, hl']
    rfl
  · show v.residency = _
    funext q
    by_cases hqr : q = r
    · rw [hqr, update_self, residency, hself]
    · rw [update_of_ne hqr, residency, hrest q hqr]
      rfl

theorem freespace_pages_enters (h : s.Full) {j : Fin 4} (hflag : s.ispagetable j = false)
    (hj : j ≠ s.victim) : Enters (freespace 2 p.val) s fun _ u l => Displaced s u l := by
  have hcount : s.freeCount + 2 = 2 := by rw [Frames.freeCount_eq_zero h.used]
  obtain ⟨q, t, hq, ht⟩ := h.owned.owner_of_used (h.used s.victim)
  obtain ⟨r, t', hr, ht'⟩ := h.owned.owner_of_used (h.used (s.nextPage (s.victim + 1)))
  have hne := s.toFrames.nextPage_succ hflag hj
  apply Enters.congr (freespace_two hcount (h.owned.ownFlagged p) rfl hflag hj hq ht)
  apply (swapOutAt_enters hq ht).bind
  intro _ u l _ hpost
  obtain ⟨hu, hl⟩ := hpost
  have hpages : u.pages (s.nextPage (s.victim + 1)) = r.val := by
    rw [hu]
    exact (update_of_ne hne _ _).trans hr
  have htable : u.TableAt r t' := by
    rw [hu]
    exact ht'
  apply (swapOutAt_enters hpages htable).mono
  intro _ v l' _ hpost
  refine .of_frames ?_ ?_
  · rw [hl, hpost.2]
    rfl
  · rw [hpost.1, hu]
    rfl

/-- `freespace(2, pid)` for a process that never had a page table. -/
theorem freespace_two_enters (hkept : s.Kept) (hin : (s.hardware p).inmem = .unset) :
    Enters (freespace 2 p.val) s fun _ u l => Displaced s u l := by
  cases hkept with
  | fresh h =>
    have hcount : 2 ≤ s.freeCount := by
      rw [h]
      decide
    exact .of_run (freespace_none hcount) rfl (.of_frames rfl rfl)
  | starting q k hk h =>
    apply freespace_starting_enters (q := q)
    rcases hk with rfl | rfl
    · exact .inl h
    · exact .inr h
  | full h =>
    by_cases honly : ∀ i, i ≠ s.victim → s.ispagetable i = true
    · exact freespace_only_enters h hin honly
    · simp only [not_forall, Bool.not_eq_true] at honly
      obtain ⟨j, hj, hflag⟩ := honly
      exact freespace_pages_enters h hflag hj

theorem Mapped.free_frame {u : Machine} (h : Mapped s u p) (hin : (s.hardware p).inmem = .unset) :
    u.Owned ∧ ∃ j, frameList.find? u.freelist = some j := by
  cases h with
  | there t ht => cases hin.symm.trans ht.inmem
  | fetched hfile => cases hin.symm.trans hfile
  | first h hu =>
    rw [hu]
    exact ⟨Frames.starting_owned p (by decide), 1, Frames.starting_find? p 1⟩
  | created f i h hf hi hu =>
    rw [hu]
    exact hf.owned_giveTable hi

/-- While a frame is free, some process has no page table in memory. -/
theorem Frames.Owned.exists_absent {f : Frames} {j : Fin 4} (h : f.Owned)
    (hj : frameList.find? f.freelist = some j) : ∃ q, (f.hardware q).inmem ≠ .memory := by
  by_contra hall
  simp only [not_exists, not_not] at hall
  have hflag := h.all_flagged (fun q => h.resident q (hall q)) j
  rw [h.not_flagged_of_free (Frames.free_of_find?_some hj)] at hflag
  cases hflag

/-- `p` has got a page table. -/
inductive Created (s u : Machine) (p : Fin 4) (l : List Message) : Prop
  | room (hl : tableMoves l = []) (hu : u.residency = update s.residency p .memory)
      (habsent : ∃ q, u.residency q ≠ .memory)
  | displaced (r : Fin 4) (hr : s.residency r = .memory)
      (hl : tableMoves l = [.tableSwapped r.val])
      (hu : u.residency = update (update s.residency r .file) p .memory)

theorem newTable_ledger (i : Fin 4) : (s.newTable p i).ledger = s.ledger := by
  have hlogged : (s.newTable p i).logged = s.logged := by
    rw [logged, newTable_out, List.filter_append]
    exact List.append_nil _
  rw [ledger, ledger, hlogged, control_linecount (newTable_control s p i)]
  rfl

theorem mapTable_displaces (hdisk : s.DiskOk) (hcalls : s.CallsOk) (hstage : s.Stage)
    (hin : (s.hardware p).inmem = .unset) : Enters (mapTable p.val vaddr) s fun _ u l =>
      ∃ m, Displaced s m l ∧ u.residency = update m.residency p .memory := by
  have hkept := hstage.kept (Frames.not_memory_of_unset hin)
  refine .step (findpte_unset hin vaddr) rfl ?_
  rw [if_pos rfl]
  by_cases hstart : s.toFrames = Frames.start
  · have hcount : 2 ≤ s.freeCount := by
      rw [hstart]
      decide
    have hfree : frameList.find?
        (s.withFrames (s.toFrames.turnTo (s.roundrobin + 1))).freelist = some 0 := by
      rw [withFrames_toFrames, hstart]
      rfl
    refine .step (freespace_none hcount) rfl (.of_run (newTable_ok hfree) (newTable_ledger 0) ?_)
    exact ⟨s, .of_frames rfl rfl, residency_giveTable
      (u := s.withFrames (s.toFrames.turnTo (s.roundrobin + 1))) rfl (newTable_toFrames _ p 0)⟩
  · apply ((freespace_two_enters hkept hin).and
      (freespace_roomy hdisk hcalls hkept hstart hin)).bind
    intro _ u l _ hpost
    obtain ⟨hl, hroomy, -⟩ := hpost
    obtain ⟨i, hi, -⟩ := hroomy.full
    refine .of_run (newTable_ok hi) (newTable_ledger i) ?_
    rw [List.append_nil]
    exact ⟨u, hl, residency_giveTable rfl (newTable_toFrames u p i)⟩

theorem Created.congr {u v : Machine} {l : List Message} (h : Created s u p l)
    (hv : v.residency = u.residency) : Created s v p l := by
  cases h with
  | room hl hu habsent =>
    refine .room hl (hv.trans hu) ?_
    rw [hv]
    exact habsent
  | displaced r hr hl hu => exact .displaced r hr hl (hv.trans hu)

theorem mapTable_creates (hdisk : s.DiskOk) (hcalls : s.CallsOk) (hstage : s.Stage)
    (hin : (s.hardware p).inmem = .unset) : Enters (mapTable p.val vaddr) s fun _ u l =>
      Created s u p l ∧ ∃ j, frameList.find? u.freelist = some j := by
  apply ((mapTable_displaces hdisk hcalls hstage hin).and
    (mapTable_yields hdisk hcalls hstage)).mono
  intro _ u l _ hpost
  obtain ⟨⟨m, hm, hu⟩, hmapped, -⟩ := hpost
  obtain ⟨howned, j, hj⟩ := hmapped.free_frame hin
  refine ⟨?_, j, hj⟩
  rcases hm with ⟨hl, hm⟩ | ⟨r, hr, hl, hm⟩
  · rw [hm] at hu
    exact .room hl hu (howned.exists_absent hj)
  · rw [hm] at hu
    exact .displaced r hr hl hu

/-- `map` of a process that has no page table yet. -/
theorem map_creates (hdisk : s.DiskOk) (hcalls : s.CallsOk) (hstage : s.Stage)
    (hin : (s.hardware p).inmem = .unset) (hv : vaddr < 64) :
    Enters (map p.val vaddr val) s fun _ u l => Created s u p l := by
  apply ((mapTable_creates hdisk hcalls hstage hin).and
    (mapTable_yields hdisk hcalls hstage)).bind
  intro _ u l _ hpost
  obtain ⟨⟨hcreated, j, hj⟩, hmapped, hdisk', hcalls'⟩ := hpost
  obtain ⟨hready, t, ht⟩ := hmapped.ready hstage
  apply ((mapPage_enters hready ht hv).and (mapPage_yields hdisk' hcalls' hready ht hv)).mono
  intro _ v l' _ hpost
  obtain ⟨hl', hframes, -⟩ := hpost
  have hnil : l' = [] := by
    rw [hl', supplied, hj]
    exact ite_self []
  have hsame : v.residency = u.residency := by
    funext q
    rw [residency, residency, hframes]
    split_ifs
    · rfl
    · rw [Frames.supply_hardware]
  rw [hnil, List.append_nil]
  exact hcreated.congr hsame

end Creating

/-! ## The steps -/

section Steps

variable {s s' u : Machine} {p : Fin 4} {c : Cmd} {e : Event} {l : List Message}

/-- What a command of `p` does to the page tables. -/
inductive Trip (s u : Machine) (p : Fin 4) (l : List Message) : Prop
  | stays (hl : tableMoves l = []) (hu : u.residency = s.residency)
      (hfew : l.countP Message.isEviction ≤ 1)
  | returned (hin : s.residency p = .file) (h : CameBack s u p l)
  | created (hin : s.residency p = .unset) (h : Created s u p l)

theorem Served.trip (h : Served s u p l) : Trip s u p l := by
  rcases h with ⟨hl, hu⟩ | ⟨hl, hu⟩
  · refine .stays (by rw [hl]; rfl) (funext fun q => ?_) (by rw [hl]; decide)
    rw [residency, residency, hu]
  · refine .stays (by rw [hl, tableMoves_supplied]) (funext fun q => ?_) ?_
    · rw [residency, residency, hu, Frames.supply_hardware]
    · rw [hl]
      exact countP_supplied

theorem run_file (hdisk : s.DiskOk) (hcalls : s.CallsOk) (hstage : s.Stage)
    (hin : (s.hardware c.pid).inmem = .file) :
    Enters c.run s fun _ u l => CameBack s u c.pid l := by
  cases c with
  | map p vaddr val => exact map_returns hdisk hcalls hstage hin vaddr.isLt
  | store p vaddr val =>
    refine .step (findpte_file hin vaddr) rfl ?_
    rw [if_neg (by decide), if_pos rfl]
    apply (command_enters .s hdisk hcalls hstage hin vaddr.isLt).bind
    exact fun _ _ _ _ h => .pure (by rwa [List.append_nil])
  | load p vaddr val =>
    refine .step (findpte_file hin vaddr) rfl ?_
    rw [if_neg (by decide), if_pos rfl]
    apply (command_enters .l hdisk hcalls hstage hin vaddr.isLt).bind
    exact fun _ _ _ _ h => .pure (by rwa [List.append_nil])

theorem run_trip (hdisk : s.DiskOk) (hcalls : s.CallsOk) (hstage : s.Stage) (c : Cmd) :
    Enters c.run s fun _ u l => Trip s u c.pid l := by
  cases hin : (s.hardware c.pid).inmem with
  | memory =>
    obtain ⟨t, ht⟩ := hstage.resident hin
    exact (run_resident hdisk hcalls hstage ht).mono fun _ _ _ _ h => h.trip
  | file => exact (run_file hdisk hcalls hstage hin).mono fun _ _ _ _ h => .returned hin h
  | unset =>
    cases c with
    | map p vaddr val =>
      apply (map_creates hdisk hcalls hstage hin vaddr.isLt).mono
      exact fun _ _ _ _ h => .created hin h
    | store p vaddr val =>
      exact (run_unset hin (by simp)).mono fun _ _ _ _ h => Served.trip (.inl h)
    | load p vaddr val =>
      exact (run_unset hin (by simp)).mono fun _ _ _ _ h => Served.trip (.inl h)

end Steps

/-! ## Runs -/

/-- Where the page tables are, and what has been printed about them. -/
inductive TablePhase (s : Machine) : List Message → Prop
  | early (hfile : ∀ p, s.residency p ≠ .file) (habsent : ∃ p, s.residency p = .unset) :
      TablePhase s []
  | away (p : Fin 4) (hin : s.residency p = .file) (hrest : ∀ q, q ≠ p → s.residency q = .memory) :
      TablePhase s [.tableSwapped p.val]
  | back (p : Fin 4) (a : Int) (hrest : ∀ q, s.residency q = .memory) :
      TablePhase s [.tableSwapped p.val, .tableLoaded p.val a]

section Phases

variable {s u : Machine} {p : Fin 4} {l k : List Message}

theorem TablePhase.stays (h : TablePhase s k) (hu : u.residency = s.residency) :
    TablePhase u k := by
  cases h with
  | early hfile habsent => exact .early (by rwa [hu]) (by rwa [hu])
  | away p hin hrest => exact .away p (by rwa [hu]) (by rwa [hu])
  | back p a hrest => exact .back p a (by rwa [hu])

/-- A page table can only come back if it is away, and then all are in memory. -/
theorem TablePhase.returned (h : TablePhase s k) (hin : s.residency p = .file)
    (hback : CameBack s u p l) : TablePhase u (k ++ tableMoves l) := by
  obtain ⟨a, hl, hu⟩ := hback
  rw [hl]
  cases h with
  | early hfile habsent => exact absurd hin (hfile p)
  | away r hr hrest =>
    obtain rfl : p = r := by
      by_contra hne
      cases hin.symm.trans (hrest p hne)
    refine .back p a fun q => ?_
    rw [hu]
    by_cases hqp : q = p
    · rw [hqp, update_self]
    · rw [update_of_ne hqp, hrest q hqp]
  | back r b hrest => cases hin.symm.trans (hrest p)

/-- A page table is only created while none has ever moved. -/
theorem TablePhase.created (h : TablePhase s k) (hin : s.residency p = .unset)
    (hnew : Created s u p l) (hstage : u.Stage) : TablePhase u (k ++ tableMoves l) := by
  cases h with
  | early hfile habsent =>
    cases hnew with
    | room hl hu habsent' =>
      have hnone : ∀ q, u.residency q ≠ .file := by
        intro q
        rw [hu]
        by_cases hqp : q = p
        · rw [hqp, update_self]
          decide
        · rw [update_of_ne hqp]
          exact hfile q
      obtain ⟨q, hq⟩ := habsent'
      rw [hl]
      refine .early hnone ⟨q, ?_⟩
      cases hres : u.residency q with
      | memory => exact absurd hres hq
      | file => exact absurd hres (hnone q)
      | unset => rfl
    | displaced r hr hl hu =>
      have hrp : r ≠ p := by
        intro heq
        subst heq
        cases hr.symm.trans hin
      have hfile' : u.residency r = .file := by
        rw [hu, update_of_ne hrp, update_self]
      rw [hl]
      refine .away r hfile' fun q hqr => ?_
      obtain ⟨t, ht⟩ := (hstage.full hfile').disk r hfile' q hqr
      exact ht.inmem
  | away r hr hrest =>
    by_cases hpr : p = r
    · subst hpr
      cases hin.symm.trans hr
    · cases hin.symm.trans (hrest p hpr)
  | back r a hrest => cases hin.symm.trans (hrest p)

theorem TablePhase.trip (h : TablePhase s k) (htrip : Trip s u p l) (hstage : u.Stage) :
    TablePhase u (k ++ tableMoves l) := by
  cases htrip with
  | stays hl hu _ =>
    rw [hl, List.append_nil]
    exact h.stays hu
  | returned hin hback => exact h.returned hin hback
  | created hin hnew => exact h.created hin hnew hstage

end Phases

section Runs

variable {s : Machine} {h : List Event}

/-- What the journal of a run says, step by step. -/
theorem run_journal (hrun : memsim.Run h s) : (s.DiskOk ∧ s.Stage) ∧
    (s.linecount = (journal h).countP Message.isEviction ∧ Numbered 0 (journal h)) ∧
    TablePhase s (tableMoves (journal h)) := by
  refine hrun.invariant (I := fun h s => (s.DiskOk ∧ s.Stage) ∧
    (s.linecount = (journal h).countP Message.isEviction ∧ Numbered 0 (journal h)) ∧
    TablePhase s (tableMoves (journal h))) ?_ ?_
  · rintro _ ⟨stack, rfl⟩
    refine ⟨⟨startup_diskOk stack, .inl (startup_kept stack)⟩, ⟨rfl, numbered_nil⟩, ?_⟩
    exact .early (fun p => by rw [residency]; exact Residency.noConfusion) ⟨0, rfl⟩
  · intro h s e s' hinv _ hstep
    obtain ⟨⟨hdisk, hstage⟩, ⟨hlines, hnumbered⟩, hphase⟩ := hinv
    obtain ⟨hout, hdisk'⟩ := step_outcome hdisk hstage hstep
    have hcommand := run_trip (s := s.reset) (hdisk.congr rfl rfl rfl) reset_callsOk hstage e.cmd
    obtain ⟨hlogs, htrip⟩ := step_enters hstep hcommand
    rw [journal_cons h]
    refine ⟨⟨hdisk', hout.stage⟩, ⟨?_, ?_⟩, ?_⟩
    · have hmore : s'.linecount = s.linecount + _ := hlogs.lines
      rw [hmore, hlines, List.countP_append]
    · apply numbered_append hnumbered
      rw [Nat.zero_add, ← hlines]
      exact hlogs.numbered
    · rw [tableMoves_append]
      have hphase' : TablePhase s.reset (tableMoves (journal h)) := hphase.stays rfl
      exact hphase'.trip htrip hout.stage

/-- Every line of the file is announced by one message, in order, and the message gives the number
after its own. -/
theorem evictions_announced (hrun : memsim.Run h s) :
    s.linecount = (journal h).countP Message.isEviction ∧ Numbered 0 (journal h) :=
  (run_journal hrun).2.1

theorem fourProcesses_journal : ∃ h s, memsim.RunIf (fun _ _ => True) h s ∧
    h.map Event.cmd = (fourProcesses ++ [Cmd.store 0 16 7]).reverse ∧ s.linecount = 5 ∧
    tableMoves (journal h) = [.tableSwapped 0, .tableLoaded 0 48] :=
  exists_run (fun _ _ => True) [] (by decide +kernel)

theorem evictions_announced_five : ∃ h s, memsim.Run h s ∧ s.linecount = 5 ∧
    (journal h).countP Message.isEviction = 5 ∧ Numbered 0 (journal h) := by
  obtain ⟨h, s, hrun, -, hlines, -⟩ := fourProcesses_journal
  obtain ⟨hcount, hnumbered⟩ := evictions_announced hrun
  exact ⟨h, s, hrun, hlines, hcount.symm.trans hlines, hnumbered⟩

end Runs

end Cs3013.Memory
