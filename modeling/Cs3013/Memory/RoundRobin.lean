import Cs3013.Memory.TableMoves

/-!
# The order of the round robin

`freespace` moves the round robin on before it looks for a frame and once more behind the frame
that it has swapped out. So the frame behind the last one is passed over. In a run of one process,
whose page table keeps frame 0, the frames that go are 2, 1, 3, 1, 3 and so on: the page that takes
frame 2 stays in memory for good.
-/
namespace Cs3013.Memory

open Function Cs3013.Library.Faulting Cs3013.Library.Transition Machine

/-- The frame of the eviction with number `n`. -/
def swapTurn : Nat → Fin 4
  | 0 => 2
  | n + 1 => if n % 2 = 0 then 1 else 3

/-- Where the round robin stands after `n` evictions. -/
def standing : Nat → Fin 4
  | 0 => 1
  | n + 1 => swapTurn n + 1

def swapTurns (n : Nat) : List Message :=
  (List.range n).map fun k => .frameSwapped (swapTurn k).val (k + 1)

/-- The frames while only `p` runs. -/
inductive Alone (p : Fin 4) (s : Machine) : Prop
  | fresh (hn : s.linecount = 0) (h : s.toFrames = Frames.start)
  | filling (k : Fin 4) (hk : k = 2 ∨ k = 3) (hn : s.linecount = 0)
      (h : s.toFrames = Frames.starting p k.val)
  | full (h : s.toFrames = (Frames.starting p 4).turnTo (standing s.linecount))

/-! ## One eviction -/

namespace Frames

variable (p r : Fin 4)

theorem starting_victim : ((starting p 4).turnTo r).victim =
    if r = 1 then 2 else if r = 2 then 3 else 1 := by
  revert r
  show ∀ r : Fin 4, (([r + 1, r + 1 + 1, r + 1 + 2, r + 1 + 3] : List (Fin 4)).find?
    fun i => !decide (i = 0)).getD (r + 1) = if r = 1 then 2 else if r = 2 then 3 else 1
  decide

/-- All frames stay with the process; only the round robin moves. -/
theorem starting_supply_full : ((starting p 4).turnTo r).supply p =
    (starting p 4).turnTo (((starting p 4).turnTo r).victim + 1) := by
  have hused : ∀ i, ((starting p 4).turnTo r).freelist i = false :=
    fun i => decide_eq_false (by omega)
  have hgive : ∀ d, ((starting p 4).turnTo r).givePage d p = (starting p 4).turnTo r := by
    intro d
    have hfree : update (starting p 4).freelist d false = (starting p 4).freelist :=
      update_eq_self_iff.mpr (hused d).symm
    have hpages : update (starting p 4).pages d (p.val : Int) = (starting p 4).pages :=
      update_eq_self_iff.mpr (if_pos d.isLt).symm
    simp only [givePage, take, Frames.turnTo, hfree, hpages]
  rw [supply_used hused, hgive]
  rfl

end Frames

theorem starting_swapTurn (p : Fin 4) (n : Nat) :
    ((Frames.starting p 4).turnTo (standing n)).victim = swapTurn n := by
  rw [Frames.starting_victim]
  match n with
  | 0 => rfl
  | 1 => rfl
  | n + 2 =>
    rw [standing, swapTurn, swapTurn]
    by_cases heven : n % 2 = 0
    · rw [if_pos heven, if_neg (by omega : ¬ (n + 1) % 2 = 0)]
      rfl
    · rw [if_neg heven, if_pos (by omega : (n + 1) % 2 = 0)]
      rfl

/-! ## One command -/

section Commands

variable {s s' u : Machine} {p : Fin 4} {vaddr : Nat} {val : UInt8} {l : List Message} {e : Event}

/-- The very first page table. -/
theorem mapTable_first (h : s.toFrames = Frames.start) :
    Enters (mapTable p.val vaddr) s fun _ u l => l = [] ∧ u.toFrames = Frames.starting p 1 ∧
      ∀ vaddr < 64, u.valpres p vaddr = 0 := by
  have hin : (s.hardware p).inmem = .unset := by
    rw [h]
    rfl
  have hcount : 2 ≤ s.freeCount := by
    rw [h]
    decide
  have hfree : frameList.find?
      (s.withFrames (s.toFrames.turnTo (s.roundrobin + 1))).freelist = some 0 := by
    rw [withFrames_toFrames, h]
    rfl
  refine .step (findpte_unset hin vaddr) rfl ?_
  rw [if_pos rfl]
  refine .step (freespace_none hcount) rfl (.of_run (newTable_ok hfree) (newTable_ledger 0) ?_)
  refine ⟨rfl, ?_, fun _ => newTable_valpres⟩
  rw [newTable_toFrames, withFrames_toFrames, h]
  exact Frames.start_giveTable p

theorem map_first (hdisk : s.DiskOk) (hcalls : s.CallsOk) (h : s.toFrames = Frames.start)
    (hv : vaddr < 64) : Enters (map p.val vaddr val) s fun _ u l =>
      l = [] ∧ u.toFrames = Frames.starting p 2 := by
  apply ((mapTable_first h).and (mapTable_yields hdisk hcalls (.inl (.fresh h)))).bind
  intro _ u l _ hpost
  obtain ⟨⟨hl, hframes, hval⟩, -, hdisk', hcalls'⟩ := hpost
  have hready : u.Ready := by
    rw [hframes]
    exact Frames.starting_ready p (by decide)
  have ht : u.TableAt p 0 := by
    rw [hframes]
    exact Frames.starting_tableAt p 1
  have habsent : u.valpres p vaddr ≠ 2 := by
    rw [hval vaddr hv]
    decide
  apply ((mapPage_enters hready ht hv).and (mapPage_yields hdisk' hcalls' hready ht hv)).mono
  intro _ v l' _ hpost
  obtain ⟨hl', hframes', -⟩ := hpost
  have hfind : frameList.find? u.freelist = some 1 := by
    rw [hframes]
    exact Frames.starting_find? p 1
  rw [if_neg habsent] at hl' hframes'
  refine ⟨?_, ?_⟩
  · rw [hl, hl', supplied, hfind]
    rfl
  · rw [hframes', hframes]
    exact Frames.starting_supply p 1

theorem Alone.table (h : Alone p s) : s.toFrames = Frames.start ∨ s.TableAt p 0 := by
  cases h with
  | fresh hn h => exact .inl h
  | filling k hk hn h =>
    right
    rw [h]
    exact Frames.starting_tableAt p k.val
  | full h =>
    right
    rw [h]
    exact Frames.starting_tableAt p 4

/-- The frame for a page comes from the free ones or from the turn that it is. -/
theorem Alone.supplied (h : Alone p s) (hp : s.TableAt p 0) (hlogs : Logs s u s.supplied)
    (hu : u.toFrames = s.toFrames.supply p) :
    Alone p u ∧ swapTurns u.linecount = swapTurns s.linecount ++ s.supplied := by
  have hlines := hlogs.lines
  cases h with
  | fresh hzero h =>
    rw [h] at hp
    cases hp.inmem
  | filling k hk hzero h =>
    have hnone : s.supplied = [] := by
      rw [Machine.supplied, h, Frames.starting_find? p k]
    rw [hnone] at hlines
    have hn : u.linecount = s.linecount := hlines
    rw [h, Frames.starting_supply p k] at hu
    rw [hn, hnone, List.append_nil]
    refine ⟨?_, rfl⟩
    rcases hk with rfl | rfl
    · exact .filling 3 (.inr rfl) (hn.trans hzero) hu
    · refine .full ?_
      rw [hn, hzero]
      exact hu
  | full h =>
    have hused : frameList.find? s.freelist = none := by
      rw [h]
      exact Frames.find?_eq_none fun i => decide_eq_false (by omega)
    have hvictim : s.victim = swapTurn s.linecount := by
      rw [h]
      exact starting_swapTurn p s.linecount
    have hentry : s.supplied = [.frameSwapped (swapTurn s.linecount).val (s.linecount + 1)] := by
      rw [Machine.supplied, hused, hvictim]
    rw [hentry] at hlines
    have hn : u.linecount = s.linecount + 1 := hlines
    refine ⟨.full ?_, ?_⟩
    · rw [hu, h, Frames.starting_supply_full, starting_swapTurn, hn]
      rfl
    · rw [hn, hentry, swapTurns, swapTurns, List.range_succ, List.map_append]
      rfl

theorem Alone.same (h : Alone p s) (hn : u.linecount = s.linecount)
    (hu : u.toFrames = s.toFrames) : Alone p u := by
  cases h with
  | fresh hzero h => exact .fresh (hn.trans hzero) (hu.trans h)
  | filling k hk hzero h => exact .filling k hk (hn.trans hzero) (hu.trans h)
  | full h =>
    refine .full ?_
    rw [hn, hu, h]

theorem Alone.served (h : Alone p s) (hp : s.TableAt p 0) (hlogs : Logs s u l)
    (hserved : Served s u p l) :
    Alone p u ∧ swapTurns u.linecount = swapTurns s.linecount ++ l := by
  rcases hserved with ⟨rfl, hu⟩ | ⟨rfl, hu⟩
  · have hn : u.linecount = s.linecount := hlogs.lines
    refine ⟨h.same hn hu, ?_⟩
    rw [hn, List.append_nil]
  · exact h.supplied hp hlogs hu

/-- The first commands: nothing goes to the file before there is a page table. -/
theorem run_first (c : Cmd) (hdisk : s.DiskOk) (hcalls : s.CallsOk)
    (h : s.toFrames = Frames.start) : Enters c.run s fun _ u l =>
      l = [] ∧ (u.toFrames = Frames.start ∨ u.toFrames = Frames.starting c.pid 2) := by
  have hin : ∀ p, (s.hardware p).inmem = .unset := by
    rw [h]
    exact fun _ => rfl
  cases c with
  | map p vaddr val =>
    exact (map_first hdisk hcalls h vaddr.isLt).mono fun _ _ _ _ hpost => ⟨hpost.1, .inr hpost.2⟩
  | store p vaddr val =>
    apply (run_unset (c := .store p vaddr val) (hin p) (by simp)).mono
    exact fun _ _ _ _ hpost => ⟨hpost.1, .inl (hpost.2.trans h)⟩
  | load p vaddr val =>
    apply (run_unset (c := .load p vaddr val) (hin p) (by simp)).mono
    exact fun _ _ _ _ hpost => ⟨hpost.1, .inl (hpost.2.trans h)⟩

/-- A command of the only process. -/
theorem Alone.step (h : Alone p s) (hdisk : s.DiskOk) (hstage : s.Stage) (hpid : e.cmd.pid = p)
    (hstep : memsim.step s e s') :
    Alone p s' ∧ swapTurns s'.linecount = swapTurns s.linecount ++ journal [e] := by
  subst hpid
  have hdisk' : s.reset.DiskOk := hdisk.congr rfl rfl rfl
  have halone : Alone e.cmd.pid s.reset := h.same rfl rfl
  rcases h.table with hstart | hp
  · obtain ⟨hlogs, hnil, hframes⟩ := step_enters hstep
      (run_first e.cmd hdisk' reset_callsOk hstart)
    have hzero : s.linecount = 0 := by
      cases h with
      | fresh hzero _ => exact hzero
      | filling k hk hzero _ => exact hzero
      | full h => cases congrFun (congrArg Frames.freelist (hstart.symm.trans h)) 0
    have hlines : s'.linecount = s.linecount + _ := hlogs.lines
    rw [hnil] at hlines ⊢
    have hn : s'.linecount = s.linecount := hlines
    refine ⟨?_, by rw [hn, List.append_nil]⟩
    rcases hframes with hframes | hframes
    · exact .fresh (hn.trans hzero) hframes
    · exact .filling 2 (.inl rfl) (hn.trans hzero) hframes
  · obtain ⟨hlogs, hserved⟩ := step_enters hstep (run_resident hdisk' reset_callsOk hstage hp)
    exact halone.served hp hlogs hserved

end Commands

section Runs

variable {s : Machine} {p : Fin 4} {h : List Event}

/-- In a run of one process the entries of the journal are the turns of the round robin. -/
theorem alone_takes_turns (hrun : memsim.RunIf (fun _ e => e.cmd.pid = p) h s) :
    journal h = swapTurns s.linecount := by
  suffices hall : (s.DiskOk ∧ s.Stage) ∧ Alone p s ∧ journal h = swapTurns s.linecount from hall.2.2
  refine hrun.invariant (I := fun h s => (s.DiskOk ∧ s.Stage) ∧ Alone p s ∧
    journal h = swapTurns s.linecount) ?_ ?_
  · rintro _ ⟨stack, rfl⟩
    exact ⟨⟨startup_diskOk stack, .inl (startup_kept stack)⟩, .fresh rfl rfl, rfl⟩
  · intro h s e s' hinv hpid hstep
    obtain ⟨⟨hdisk, hstage⟩, halone, hjournal⟩ := hinv
    obtain ⟨hout, hdisk'⟩ := step_outcome hdisk hstage hstep
    obtain ⟨halone', hswaps⟩ := halone.step hdisk hstage hpid hstep
    refine ⟨⟨hdisk', hout.stage⟩, halone', ?_⟩
    rw [journal_cons, hjournal, hswaps]

/-- Four pages take turns in three frames. -/
def pageTurns : List Cmd :=
  [.map 1 0 1, .map 1 16 1, .map 1 32 1, .map 1 48 1, .load 1 16 0, .load 1 0 0, .load 1 32 0]

theorem pageTurns_run : ∃ h s, memsim.RunIf (fun _ e => e.cmd.pid = 1) h s ∧
    h.map Event.cmd = pageTurns.reverse ∧ s.linecount = 4 :=
  exists_run (fun _ c => c.pid = 1) [] (by decide +kernel)

theorem alone_takes_turns_pages : ∃ h s, memsim.RunIf (fun _ e => e.cmd.pid = 1) h s ∧
    h.map Event.cmd = pageTurns.reverse ∧ journal h =
      [.frameSwapped 2 1, .frameSwapped 1 2, .frameSwapped 3 3, .frameSwapped 1 4] := by
  obtain ⟨h, s, hrun, hcmds, hlines⟩ := pageTurns_run
  refine ⟨h, s, hrun, hcmds, ?_⟩
  rw [alone_takes_turns hrun, hlines]
  rfl

end Runs

end Cs3013.Memory
