import Cs3013.Memory.Growth
import Cs3013.Memory.Reader

/-!
# Where a command can stop

Whatever the page tables hold, a command stops only at an access outside of `mem`, at the last
value of linecount, or in the search for a line that is not there yet. The indices of all other
arrays stay in range, also in states that no correct memory would come to.
-/
namespace Cs3013.Memory

open Cs3013.Library.Faulting Cs3013.Library.Transition Machine

/-- What is known about the fault of a command of `p` for `vaddr` and about the state in which it
stops. A missing line has the number that the entry of the page names. -/
def Explained (p : Fin 4) (vaddr : Nat) (e : Fault) (u : Machine) : Prop :=
  match e with
  | .mem i => ¬ (0 ≤ i ∧ i < 64)
  | .overflow => 2 ^ 31 ≤ u.linecount + 1
  | .token => (u.tableByte p (4 * (vaddr / 16) + 1)).toNat = u.linecount
  | .endOfFile => (u.tableByte p (4 * (vaddr / 16) + 1)).toNat = u.linecount
  | .hardware _ => False
  | .frame _ => False
  | .loop => False

/-- Where the program stops when it starts in `s` is explained. -/
def Explains {α : Type} (p : Fin 4) (vaddr : Nat) (m : M α) (s : Machine) : Prop :=
  wp m (fun _ _ => True) (Explained p vaddr) s

/-- The same from every state; nothing is measured. -/
abbrev Checked {α : Type} (p : Fin 4) (vaddr : Nat) (m : M α) : Prop :=
  Spends (fun _ => 0) (Explained p vaddr) 0 m

section Rules

variable {α β : Type} {p : Fin 4} {vaddr : Nat} {m : M α} {f : α → M β} {s u : Machine} {a : α}
  {Q : α → Machine → Prop}

theorem Checked.explains (hm : Checked p vaddr m) : Explains p vaddr m s :=
  wp_mono (hm s) (fun _ _ _ => trivial) fun _ _ h => h.2

theorem Checked.of_ok (h : ∀ s, ∃ a u, m.run s = .ok a u) : Checked p vaddr m := by
  intro s
  obtain ⟨a, u, hrun⟩ := h s
  exact (wp_of_ok hrun).mpr le_rfl

theorem Explains.of_ok (h : m.run s = .ok a u) : Explains p vaddr m s := (wp_of_ok h).mpr trivial

theorem Explains.congr {m' : M α} (h : m.run s = m'.run u) (h' : Explains p vaddr m' u) :
    Explains p vaddr m s := wp_congr h h'

theorem Explains.step (h : m.run s = .ok a u) (hf : Explains p vaddr (f a) u) :
    Explains p vaddr (m >>= f) s := wp_step h hf

/-- The rest starts where the specification of the first part leaves the machine. -/
theorem Explains.bind (hm : Explains p vaddr m s) (hy : Yields m s Q)
    (hf : ∀ a u, Q a u → u.DiskOk → u.CallsOk → Explains p vaddr (f a) u) :
    Explains p vaddr (m >>= f) s := by
  rw [Explains, wp_bind]
  exact wp_mono (wp_and hm hy) (fun a u h => hf a u h.2.1 h.2.2.1 h.2.2.2) fun _ _ h => h.1

theorem Explains.last (hm : Explains p vaddr m s) (hf : ∀ a, Checked p vaddr (f a)) :
    Explains p vaddr (m >>= f) s := by
  rw [Explains, wp_bind]
  exact wp_imp hm fun a u _ => (hf a).explains

end Rules

/-! ## Accesses that are in range, or checked -/

section Checked

variable {p q i d : Fin 4} {vaddr : Nat}

theorem checked_peek (k : Int) : Checked p vaddr (peek k) := by
  intro s
  unfold wp EStateM.run peek
  split_ifs with h
  · exact le_rfl
  · exact ⟨le_rfl, h⟩

theorem checked_poke (k : Int) (v : UInt8) : Checked p vaddr (poke k v) := by
  intro s
  unfold wp EStateM.run poke
  split_ifs with h
  · exact le_rfl
  · exact ⟨le_rfl, h⟩

theorem checked_say (m : Message) : Checked p vaddr (say m) := .modify fun _ => rfl

theorem checked_setHardware (hp : Hp) : Checked p vaddr (setHardware q.val hp) :=
  .of_ok fun _ => ⟨_, _, setHardware_ok q hp⟩

theorem checked_setPages (pid : Int) : Checked p vaddr (setPages (16 * i.val) pid) :=
  .of_ok fun _ => ⟨_, _, setPages_ok i pid⟩

theorem checked_setFreelist (free : Bool) : Checked p vaddr (setFreelist (16 * i.val) free) :=
  .of_ok fun _ => ⟨_, _, setFreelist_ok i free⟩

theorem checked_setIspagetable (table : Bool) :
    Checked p vaddr (setIspagetable (16 * i.val) table) :=
  .of_ok fun _ => ⟨_, _, setIspagetable_ok i table⟩

theorem checked_findpte (v : Nat) : Checked p vaddr (findpte q.val v) := by
  apply Checked.of_ok
  intro s
  rw [findpte, bind_of_ok (hardwareOf_ok q)]
  cases (s.hardware q).inmem with
  | memory => exact ⟨_, _, rfl⟩
  | file => exact ⟨_, _, rfl⟩
  | unset => exact ⟨_, _, rfl⟩

theorem checked_convert (v : Nat) : Checked p vaddr (convert v q.val) := by
  have hhardware : Checked p vaddr (hardwareOf q.val) := .of_ok fun _ => ⟨_, _, hardwareOf_ok q⟩
  refine hhardware.free fun hp => .ite ?_ (.pure _)
  refine (checked_peek _).free fun _ => .ite (.pure _) ?_
  exact (checked_peek _).free fun _ => .pure _

theorem checked_clear (base : Int) :
    Checked p vaddr (forM (List.range 16) fun (i : Nat) => poke (base + i) 0 : M PUnit) :=
  .forM _ fun _ _ => checked_poke _ _

theorem checked_appendPage (base : Int) : Checked p vaddr (appendPage base) := by
  have hnext : Checked p vaddr nextLine := by
    intro s
    unfold wp EStateM.run nextLine
    split_ifs with hbound
    · exact le_rfl
    · exact ⟨le_rfl, Nat.le_of_not_lt hbound⟩
  refine hnext.free fun line => ?_
  refine (Spends.mapM _ fun _ _ => checked_peek _).free fun _ => ?_
  exact Spends.free (.modify fun _ => rfl) fun _ => .pure _

theorem checked_searchTable (pte paddr : Int) : Checked p vaddr (searchTable pte paddr) :=
  .foldlM _ (fun _ _ _ => (checked_peek _).free fun _ =>
    .ite ((checked_peek _).free fun _ => .pure _) (.pure _)) 0

theorem checked_removePage : Checked p vaddr (removePage q.val (16 * d.val)) := by
  refine (checked_findpte _).free fun _ => (checked_searchTable _ _).free fun _ => ?_
  refine (checked_appendPage _).free fun _ => (checked_poke _ _).free fun _ => ?_
  refine (checked_poke _ _).free fun _ => (checked_clear _).free fun _ => ?_
  exact (checked_setFreelist _).free fun _ => checked_setPages _

end Checked

/-! ## The moves -/

section Moves

variable {s : Machine} {p q i t d : Fin 4} {vaddr : Nat}

theorem pageFromFile_error (buffer : Page) (linenum : Int) :
    wp (pageFromFile buffer linenum) (fun _ _ => True)
      (fun e u => (e = .token ∨ e = .endOfFile) ∧ u = s) s := by
  have hfuel := findLine_ne_loop linenum (s.swapspace.length + 1) s.swapspace (Nat.lt_succ_self _)
  rw [pageFromFile, wp_bind, wp_get, wp_ite]
  split_ifs
  · trivial
  · split
    · rename_i e herror
      refine ⟨(findLine_error herror).resolve_left fun hloop => ?_, rfl⟩
      exact hfuel (hloop ▸ herror)
    · trivial

/-- Only the first number that is not in use lets the search run on. -/
theorem pageFromFile_explains {n : Nat} (hfile : FileOk s) (buffer : Page)
    (hn : n = (s.tableByte p (4 * (vaddr / 16) + 1)).toNat) :
    Explains p vaddr (pageFromFile buffer n) s := by
  rcases Nat.lt_trichotomy n s.linecount with hlt | heq | hgt
  · exact .of_ok (pageFromFile_ok hfile buffer hlt)
  · apply wp_mono (pageFromFile_error buffer n) (fun _ _ _ => trivial)
    rintro e u ⟨rfl | rfl, rfl⟩
    · exact hn.symm.trans heq
    · exact hn.symm.trans heq
  · exact .of_ok (pageFromFile_beyond buffer hgt)

theorem loadPage_explains (hdisk : s.DiskOk) (hp : s.TableAt p t) (hv : vaddr < 64)
    (hfree : frameList.find? s.freelist = some i) : Explains p vaddr (loadPage p.val vaddr) s := by
  refine .step (findpte_memory hp vaddr) (.step (peek_entry hp hv (j := 1) (by decide) rfl) ?_)
  refine .step (findfree_some hfree) (.step (note_ok _) (.step uninitialised_ok ?_))
  have hfile : FileOk ((s.withFrames (s.toFrames.take i)).noted (.findfree (16 * i.val))).popped :=
    hdisk.file.congr rfl rfl
  refine (pageFromFile_explains hfile _ rfl).last fun _ => ?_
  refine Spends.free (.forM _ fun _ _ => checked_poke _ _) fun _ => ?_
  refine (checked_setPages _).free fun _ => (checked_findpte _).free fun _ => ?_
  refine (checked_poke _ _).free fun _ => (checked_findpte _).free fun _ => ?_
  exact (checked_poke _ _).free fun _ => (checked_say _).free fun _ => .pure _

theorem removePageTable_explains (hq : s.TableAt q t) :
    Explains p vaddr (removePageTable q.val) s := by
  refine .step (findpte_zero hq) (Checked.explains ?_)
  refine (checked_appendPage _).free fun _ => (checked_setHardware _).free fun _ => ?_
  refine (checked_setFreelist _).free fun _ => (checked_setIspagetable _).free fun _ => ?_
  exact (checked_clear _).free fun _ => (checked_setPages _).free fun _ => checked_say _

theorem swapOutAt_explains (hq : s.pages d = q.val) : Explains p vaddr (swapOutAt d) s := by
  apply Explains.congr swapOutAt_run
  rw [hq]
  apply Checked.explains
  refine checked_removePage.free fun _ => Spends.get.free fun _ => ?_
  exact (checked_say _).free fun _ => .modify fun _ => rfl

/-- With no free frame, `freespace(1, pid)` swaps out one frame. -/
theorem freespace_explains (hready : s.Ready) (hused : ∀ i, s.freelist i = false) :
    Explains p vaddr (freespace 1 p.val) s := by
  obtain ⟨q, t, hq, -⟩ := hready.owner hused s.victim
  have hcount : s.freeCount + 1 = 1 := by rw [Frames.freeCount_eq_zero hused]
  exact .congr (freespace_one hcount (hready.ownFlagged p)) (swapOutAt_explains hq)

end Moves

/-! ## Room for a page table -/

section Room

variable {s : Machine} {p q : Fin 4} {vaddr : Nat}

theorem freespace_starting_explains
    (h : s.toFrames = Frames.starting q 2 ∨ s.toFrames = Frames.starting q 3) :
    Explains p vaddr (freespace 2 p.val) s := by
  rcases h with h | h
  · have hcount : s.freeCount = 2 := by
      rw [h]
      exact Frames.starting_freeCount q 2
    exact .of_ok (freespace_none hcount.ge)
  · have hcount : s.freeCount + 1 = 2 := by
      rw [h]
      exact congrArg (· + 1) (Frames.starting_freeCount q 3)
    have howned : s.Owned := by
      rw [h]
      exact Frames.starting_owned q (by decide)
    have hpages : s.pages s.victim = q.val := by
      rw [h]
      rfl
    exact .congr (freespace_one hcount (howned.ownFlagged p)) (swapOutAt_explains hpages)

theorem freespace_only_explains (hdisk : s.DiskOk) (hcalls : s.CallsOk) (h : s.Full)
    (hp : (s.hardware p).inmem = .unset) (honly : ∀ i, i ≠ s.victim → s.ispagetable i = true) :
    Explains p vaddr (freespace 2 p.val) s := by
  have hcount : s.freeCount + 2 = 2 := by rw [Frames.freeCount_eq_zero h.used]
  have hsucc : ∀ d : Fin 4, d + 1 ≠ d := by decide
  obtain ⟨q, t, hq, ht⟩ := h.owned.owner_of_used (h.used s.victim)
  obtain ⟨i, hi⟩ := h.owned.exists_not_flagged (Frames.not_memory_of_unset hp)
  obtain ⟨r, hr⟩ := h.owned.flagged _ (honly _ (hsucc s.victim))
  have hother : s.hardware p ≠ ⟨16 * (s.victim + 1 : Fin 4).val, .memory⟩ := by
    intro hself
    cases (congrArg Hp.inmem hself).symm.trans hp
  apply Explains.congr (freespace_table hcount (h.owned.ownFlagged p)
    (Frames.victim_not_flagged hi) honly hq ht hother)
  rw [(h.owned.table r _ hr).2]
  refine (swapOutAt_explains hq).bind (swapOutAt_yields hdisk hcalls hq ht) ?_
  rintro _ u ⟨hu, -⟩ - -
  have hr' : u.TableAt r (s.victim + 1) := by
    rw [hu]
    exact hr
  exact (removePageTable_explains hr').last fun _ => .modify fun _ => rfl

theorem freespace_pages_explains (hdisk : s.DiskOk) (hcalls : s.CallsOk) (h : s.Full)
    {j : Fin 4} (hflag : s.ispagetable j = false) (hj : j ≠ s.victim) :
    Explains p vaddr (freespace 2 p.val) s := by
  have hcount : s.freeCount + 2 = 2 := by rw [Frames.freeCount_eq_zero h.used]
  obtain ⟨q, t, hq, ht⟩ := h.owned.owner_of_used (h.used s.victim)
  obtain ⟨r, t', hr, -⟩ := h.owned.owner_of_used (h.used (s.nextPage (s.victim + 1)))
  have hne := s.toFrames.nextPage_succ hflag hj
  apply Explains.congr (freespace_two hcount (h.owned.ownFlagged p) rfl hflag hj hq ht)
  refine (swapOutAt_explains hq).bind (swapOutAt_yields hdisk hcalls hq ht) ?_
  rintro _ u ⟨hu, -⟩ - -
  have hpages : u.pages (s.nextPage (s.victim + 1)) = r.val := by
    rw [hu]
    exact (Function.update_of_ne hne _ _).trans hr
  exact swapOutAt_explains hpages

theorem freespace_roomy_explains (hdisk : s.DiskOk) (hcalls : s.CallsOk) (hkept : s.Kept)
    (hstart : s.toFrames ≠ Frames.start) (hp : (s.hardware p).inmem = .unset) :
    Explains p vaddr (freespace 2 p.val) s := by
  cases hkept with
  | fresh h => exact absurd h hstart
  | starting q k hk h =>
    apply freespace_starting_explains
    rcases hk with rfl | rfl
    · exact .inl h
    · exact .inr h
  | full h =>
    by_cases honly : ∀ i, i ≠ s.victim → s.ispagetable i = true
    · exact freespace_only_explains hdisk hcalls h hp honly
    · simp only [not_forall, Bool.not_eq_true] at honly
      obtain ⟨j, hj, hflag⟩ := honly
      exact freespace_pages_explains hdisk hcalls h hflag hj

/-- `freespace(1,pid); loadPageTable(pid);` -/
theorem fetchTable_explains (hdisk : s.DiskOk) (hcalls : s.CallsOk) (hfull : s.Full)
    (hp : (s.hardware p).inmem = .file) :
    Explains p vaddr (do freespace 1 p.val; loadPageTable p.val : M Int) s := by
  obtain ⟨n, hn, hline⟩ := hdisk.line p hp
  refine (freespace_explains hfull.ready hfull.used).bind
    (freespace_yields hdisk hcalls hfull.ready hfull.used p) ?_
  rintro _ u ⟨hu, hgrows⟩ - -
  have hline' : u.hardware p = ⟨n, .file⟩ := by
    rw [hu]
    exact hline
  have hfree : frameList.find? u.freelist = some s.victim := by
    rw [hu]
    exact Frames.find?_evict hfull.used
  exact .of_ok (loadPageTable_ok hline' (lt_of_lt_of_le hn hgrows.count) hgrows.ok hfree)

end Room

/-! ## The commands -/

section Commands

variable {s : Machine} {p t : Fin 4} {vaddr : Nat} {val : UInt8}

theorem mapTable_explains (hdisk : s.DiskOk) (hcalls : s.CallsOk) (hstage : s.Stage) :
    Explains p vaddr (mapTable p.val vaddr) s := by
  cases hin : (s.hardware p).inmem with
  | memory =>
    obtain ⟨t, ht⟩ := hstage.resident hin
    refine .step (findpte_memory ht vaddr) ?_
    rw [if_neg (by omega)]
    refine .step (findpte_memory ht vaddr) ?_
    rw [if_neg (by omega)]
    exact .of_ok (pure_run _)
  | file =>
    refine .step (findpte_file hin vaddr) ?_
    rw [if_neg (by decide)]
    refine .step (findpte_file hin vaddr) ?_
    rw [if_pos rfl, ← bind_assoc]
    have hfull := hstage.full hin
    refine (fetchTable_explains hdisk hcalls hfull hin).bind
      (fetchTable_yields hdisk hcalls hfull hin) ?_
    rintro _ u ⟨rfl, -⟩ - -
    apply Checked.explains
    exact (checked_setPages _).free fun _ => (checked_setIspagetable _).free fun _ => checked_say _
  | unset =>
    refine .step (findpte_unset hin vaddr) ?_
    rw [if_pos rfl]
    by_cases hstart : s.toFrames = Frames.start
    · have hcount : 2 ≤ s.freeCount := by
        rw [hstart]
        decide
      have hfree : frameList.find?
          (s.withFrames (s.toFrames.turnTo (s.roundrobin + 1))).freelist = some 0 := by
        rw [withFrames_toFrames, hstart]
        rfl
      exact .step (freespace_none hcount) (.of_ok (newTable_ok hfree))
    · have hkept := hstage.kept (Frames.not_memory_of_unset hin)
      refine (freespace_roomy_explains hdisk hcalls hkept hstart hin).bind
        (freespace_roomy hdisk hcalls hkept hstart hin) ?_
      intro _ u hu _ _
      obtain ⟨i, hi, -⟩ := hu.full
      exact .of_ok (newTable_ok hi)

theorem obtainFrame_explains (hready : s.Ready) : Explains p vaddr (obtainFrame p.val) s := by
  cases hfind : frameList.find? s.freelist with
  | some i =>
    refine .step (findfree_some hfind) ?_
    rw [if_neg (by omega)]
    exact .of_ok (pure_run _)
  | none =>
    refine .step (findfree_none hfind) ?_
    rw [if_pos (by decide)]
    refine (freespace_explains hready (Frames.used_of_find?_none hfind)).last fun _ => ?_
    refine Spends.free ?_ fun _ => Spends.free (.modify fun _ => rfl) fun _ => .pure _
    refine Spends.get.free fun u => ?_
    cases frameList.find? u.freelist with
    | some i => exact (checked_setFreelist _).free fun _ => .pure _
    | none => exact .pure _

theorem mapPage_explains (hdisk : s.DiskOk) (hcalls : s.CallsOk) (hready : s.Ready)
    (hp : s.TableAt p t) (hv : vaddr < 64) : Explains p vaddr (mapPage p.val vaddr val) s := by
  refine .step (findpte_memory hp vaddr) (.step (peek_valpres hp hv) ?_)
  by_cases hpresent : s.valpres p vaddr = 2
  · rw [if_pos hpresent]
    apply Checked.explains
    refine (checked_peek _).free fun _ => .ite ?_ ?_
    · exact (checked_say _).free fun _ => .pure _
    · exact (checked_say _).free fun _ => (checked_poke _ _).free fun _ => .pure _
  · rw [if_neg hpresent]
    refine (obtainFrame_explains hready).bind (obtainFrame_yields hdisk hcalls hready p) ?_
    rintro _ u ⟨i, rfl, -⟩ - -
    apply Checked.explains
    refine (checked_setPages _).free fun _ => (checked_peek _).free fun _ => ?_
    refine (checked_say _).free fun _ => (checked_poke _ _).free fun _ => ?_
    exact (checked_poke _ _).free fun _ => (checked_poke _ _).free fun _ => .pure _

theorem map_explains (hdisk : s.DiskOk) (hcalls : s.CallsOk) (hstage : s.Stage)
    (hv : vaddr < 64) : Explains p vaddr (map p.val vaddr val) s := by
  refine (mapTable_explains hdisk hcalls hstage).bind (mapTable_yields hdisk hcalls hstage) ?_
  intro _ u hu hdisk' hcalls'
  obtain ⟨hready, t, ht⟩ := hu.ready hstage
  exact mapPage_explains hdisk' hcalls' hready ht hv

/-- A page comes in from the file, after another one has left if no frame is free. -/
theorem loadPage_after (hdisk : s.DiskOk) (hcalls : s.CallsOk) (hready : s.Ready)
    (hp : s.TableAt p t) (hv : vaddr < 64) (hused : ∀ i, s.freelist i = false) :
    Explains p vaddr (do freespace 1 p.val; loadPage p.val vaddr : M Int) s := by
  refine (freespace_explains hready hused).bind (freespace_yields hdisk hcalls hready hused p) ?_
  rintro _ u ⟨hu, -⟩ hdisk' -
  have hfree : frameList.find? u.freelist = some s.victim := by
    rw [hu]
    exact Frames.find?_evict hused
  have hp' : u.TableAt p t := by
    rw [hu]
    exact hp
  exact loadPage_explains hdisk' hp' hv hfree

theorem load_present_explains (hdisk : s.DiskOk) (hcalls : s.CallsOk) (hready : s.Ready)
    (hp : s.TableAt p t) (hv : vaddr < 64) : Explains p vaddr (load p.val vaddr val) s := by
  refine .step (findpte_memory hp vaddr) ?_
  rw [if_pos (by omega)]
  refine .step (peek_valpres hp hv) ?_
  by_cases hdisk1 : s.valpres p vaddr = 1
  · rw [if_pos hdisk1]
    refine .step get_run ?_
    cases hfind : frameList.find? s.freelist with
    | some i =>
      rw [if_pos (any_of_find?_some hfind)]
      refine (loadPage_explains hdisk hp hv hfind).last fun _ => ?_
      refine (checked_convert _).free fun _ => .ite ?_ (.pure _)
      exact (checked_peek _).free fun _ => (checked_say _).free fun _ => .pure _
    | none =>
      have hused := Frames.used_of_find?_none hfind
      rw [if_neg (not_any_of_used hused), ← bind_assoc]
      refine (loadPage_after hdisk hcalls hready hp hv hused).last fun _ => ?_
      refine (checked_convert _).free fun _ => .ite ?_ (.pure _)
      exact (checked_peek _).free fun _ => (checked_say _).free fun _ => .pure _
  · rw [if_neg hdisk1]
    apply Checked.explains
    refine .ite ?_ ?_
    · exact (checked_convert _).free fun _ => (checked_peek _).free fun _ =>
        (checked_say _).free fun _ => .pure _
    · exact (checked_convert _).free fun _ => (checked_peek _).free fun _ =>
        (checked_say _).free fun _ => .pure _

theorem fetch_explains (hdisk : s.DiskOk) (hcalls : s.CallsOk) (hstage : s.Stage)
    (hin : (s.hardware p).inmem = .file) (hv : vaddr < 64) :
    Explains p vaddr (fetch p.val vaddr) s := by
  have hfull := hstage.full hin
  have hspace : ((s.freeCount : Nat) : Int) = 0 := by
    rw [Frames.freeCount_eq_zero hfull.used]
    rfl
  rw [fetch]
  refine .step get_run (.step (hardwareOf_ok p) ?_)
  rw [hspace, if_pos hin, if_pos (by decide), ← bind_assoc]
  refine (fetchTable_explains hdisk hcalls hfull hin).bind
    (fetchTable_yields hdisk hcalls hfull hin) ?_
  rintro _ u ⟨rfl, hu⟩ hdisk' hcalls'
  obtain ⟨hfull', -⟩ := hfull.fetch hin
  rw [← hu.frames] at hfull'
  have ht : u.TableAt p s.victim := by
    rw [hu.frames]
    exact Frames.giveTable_tableAt
  refine .step (findpte_memory ht vaddr) (.step (peek_valpres ht hv) ?_)
  by_cases hpage : u.valpres p vaddr = 1
  · rw [if_pos hpage, if_pos (by decide), ← bind_assoc]
    exact (loadPage_after hdisk' hcalls' hfull'.ready ht hv hfull'.used).last fun _ => .pure _
  · rw [if_neg hpage]
    exact .of_ok (pure_run _)

theorem command_explains (access : Access) (hdisk : s.DiskOk) (hcalls : s.CallsOk)
    (hstage : s.Stage) (hin : (s.hardware p).inmem = .file) (hv : vaddr < 64) :
    Explains p vaddr (command access p.val vaddr val) s := by
  refine (fetch_explains hdisk hcalls hstage hin hv).last fun _ => ?_
  cases access with
  | s =>
    refine (checked_findpte _).free fun _ => (checked_peek _).free fun _ => .ite ?_ (checked_say _)
    exact (checked_convert _).free fun _ => (checked_poke _ _).free fun _ => checked_say _
  | l =>
    refine (checked_convert _).free fun _ => .ite ?_ (.pure _)
    exact (checked_peek _).free fun _ => checked_say _

theorem store_explains (hdisk : s.DiskOk) (hcalls : s.CallsOk) (hstage : s.Stage)
    (hv : vaddr < 64) : Explains p vaddr (store p.val vaddr val) s := by
  cases hin : (s.hardware p).inmem with
  | memory =>
    obtain ⟨t, ht⟩ := hstage.resident hin
    refine .step (findpte_memory ht vaddr) ?_
    rw [if_pos (by omega)]
    apply Checked.explains
    refine (checked_convert _).free fun _ => .ite ?_ ?_
    · exact (checked_say _).free fun _ => .pure _
    · refine (checked_peek _).free fun _ => .ite ?_ ?_
      · exact (checked_poke _ _).free fun _ => (checked_say _).free fun _ => .pure _
      · exact (checked_say _).free fun _ => .pure _
  | file =>
    refine .step (findpte_file hin vaddr) ?_
    rw [if_neg (by decide), if_pos rfl]
    exact (command_explains .s hdisk hcalls hstage hin hv).last fun _ => .pure _
  | unset =>
    refine .step (findpte_unset hin vaddr) ?_
    rw [if_neg (by decide), if_neg (by decide), if_pos rfl]
    exact .step (say_ok _) (.of_ok (pure_run _))

theorem load_explains (hdisk : s.DiskOk) (hcalls : s.CallsOk) (hstage : s.Stage)
    (hv : vaddr < 64) : Explains p vaddr (load p.val vaddr val) s := by
  cases hin : (s.hardware p).inmem with
  | memory =>
    obtain ⟨t, ht⟩ := hstage.resident hin
    exact load_present_explains hdisk hcalls hstage.ready ht hv
  | file =>
    refine .step (findpte_file hin vaddr) ?_
    rw [if_neg (by decide), if_pos rfl]
    exact (command_explains .l hdisk hcalls hstage hin hv).last fun _ => .pure _
  | unset =>
    refine .step (findpte_unset hin vaddr) ?_
    rw [if_neg (by decide), if_neg (by decide), if_pos rfl]
    exact .step (say_ok _) (.of_ok (pure_run _))

/-- One command, whatever the page tables hold. -/
theorem exec_explains (hdisk : s.DiskOk) (hstage : s.Stage) (c : Cmd) :
    Explains c.pid c.vaddr (exec c) s := by
  have hdisk' : Machine.DiskOk { s with out := [], calls := [] } := hdisk.congr rfl rfl rfl
  have hcalls : Machine.CallsOk { s with out := [], calls := [] } := by
    intro call hcall
    cases hcall
  refine .step (modify_run _) ?_
  cases c with
  | map pid vaddr val => exact map_explains hdisk' hcalls hstage vaddr.isLt
  | store pid vaddr val => exact store_explains hdisk' hcalls hstage vaddr.isLt
  | load pid vaddr val => exact load_explains hdisk' hcalls hstage vaddr.isLt

end Commands

/-! ## Runs -/

section Runs

variable {s u : Machine} {h : List Event} {c : Cmd} {e : Fault}

/-- In every run the next command comes to its end, or it leaves `mem`, or linecount is at its last
value, or the command looks for the page behind the end of the file: the entry of its page names the
line that would be written next. -/
theorem faults_explained (hrun : memsim.Run h s) (hexec : (exec c).run s = .error e u) :
    (∃ i, e = .mem i ∧ ¬ (0 ≤ i ∧ i < 64)) ∨ (e = .overflow ∧ 2 ^ 31 ≤ u.linecount + 1) ∨
      ((e = .token ∨ e = .endOfFile) ∧
        (u.tableByte c.pid (4 * (c.vaddr.val / 16) + 1)).toNat = u.linecount) := by
  obtain ⟨hdisk, hstage⟩ := run_stage hrun
  have hexplained : Explained c.pid c.vaddr e u := by
    have hstop := exec_explains hdisk hstage c
    unfold Explains wp at hstop
    rwa [hexec] at hstop
  cases e with
  | mem i => exact .inl ⟨i, rfl, hexplained⟩
  | overflow => exact .inr (.inl ⟨rfl, hexplained⟩)
  | token => exact .inr (.inr ⟨.inl rfl, hexplained⟩)
  | endOfFile => exact .inr (.inr ⟨.inr rfl, hexplained⟩)
  | hardware pid => exact hexplained.elim
  | frame index => exact hexplained.elim
  | loop => exact hexplained.elim

end Runs

/-- Process 0 stores 5 to the page table of process 1, which lies where its own page was, and
process 1 looks for line 5. -/
theorem tableOverwritten_load : ∃ h s, memsim.RunIf (fun _ _ => True) h s ∧
    h.map Event.cmd = [Cmd.map 1 48 1, .map 1 16 1, .map 0 32 1, .map 3 0 1, .map 0 16 1,
      .store 0 35 5].reverse ∧
    wp (exec (.load 1 16 0)) (fun _ _ => False) (fun e u => e = .token ∧ u.linecount = 5) s :=
  exists_run (fun _ _ => True) [] (by decide +kernel)

theorem faults_explained_token : ∃ h s u, memsim.Run h s ∧
    (exec (.load 1 16 0)).run s = .error .token u ∧ (u.tableByte 1 5).toNat = 5 := by
  obtain ⟨h, s, hrun, -, hstop⟩ := tableOverwritten_load
  unfold wp at hstop
  cases hexec : (exec (.load 1 16 0)).run s with
  | ok r u =>
    rw [hexec] at hstop
    exact hstop.elim
  | error e u =>
    rw [hexec] at hstop
    obtain ⟨rfl, hlines⟩ := hstop
    refine ⟨h, s, u, hrun, hexec, ?_⟩
    rcases faults_explained hrun hexec with ⟨i, hmem, -⟩ | ⟨hover, -⟩ | ⟨-, hline⟩
    · cases hmem
    · cases hover
    · exact hline.trans hlines

end Cs3013.Memory
