import Cs3013.Memory.Paging

/-!
# Round-robin eviction

The two loops of `freespace`. The first one swaps out pages and passes over page tables, the
second one also swaps out page tables. A loop that is still running after `loopFuel`
iterations counts as not finishing.
-/
namespace Cs3013.Memory

open Cs3013.Library.Faulting

def loopFuel : Nat := 16

def robin : M Unit := modify fun s => { s with roundrobin := s.roundrobin + 1 }

/-- `if (roundrobin * PAGEMEM == hardware[pid].address && hardware[pid].inmem == 1) robin();`,
with the number of frames passed over. -/
def skipOwnTable (pid : Int) : M Nat := do
  let hp ← hardwareOf pid
  let s ← get
  if (16 * s.roundrobin.val : Int) = hp.address ∧ hp.inmem = .memory then
    robin
    return 1
  else
    return 0

/-- `while (ispagetable[roundrobin] == 1) { robin(); j++; if (j == 4) break; }` -/
def skipTables : Nat → Nat → M Nat
  | 0, _ => throw .loop
  | fuel + 1, j => do
    let s ← get
    if s.ispagetable s.roundrobin then
      robin
      if j + 1 = 4 then return j + 1 else skipTables fuel (j + 1)
    else
      return j

/-- `removePage(pages[roundrobin], roundrobin * PAGEMEM)`. -/
def swapOutFrame : M Unit := do
  let s ← get
  note (.removePage (s.pages s.roundrobin) (16 * s.roundrobin.val) s.hardware)
  removePage (s.pages s.roundrobin) (16 * s.roundrobin.val)

/-- The first loop: it ends with `f` and the array `removed`. -/
def evictPages (n : Nat) (pid : Int) : Nat → Nat → (Fin 4 → Bool) → M (Nat × (Fin 4 → Bool))
  | 0, _, _ => throw .loop
  | fuel + 1, f, removed =>
    if f < n then do
      let j ← skipOwnTable pid
      let j ← skipTables 5 j
      let s ← get
      if removed s.roundrobin = false then
        swapOutFrame
        say (.frameSwapped s.roundrobin.val (← get).linecount)
        robin
        let removed := Function.update removed s.roundrobin true
        if j + 1 = 4 then return (f + 1, removed) else evictPages n pid fuel (f + 1) removed
      else
        robin
        if j + 1 = 4 then return (f, removed) else evictPages n pid fuel f removed
    else
      return (f, removed)

/-- The second loop, which leaves `removed` alone. -/
def evictTables (n : Nat) (pid : Int) (removed : Fin 4 → Bool) : Nat → Nat → M Unit
  | 0, _ => throw .loop
  | fuel + 1, f =>
    if f < n then do
      let _ ← skipOwnTable pid
      let s ← get
      if removed s.roundrobin = false then
        if s.ispagetable s.roundrobin then
          removePageTable (s.pages s.roundrobin)
          robin
          evictTables n pid removed fuel (f + 1)
        else
          swapOutFrame
          say (.frameSwapped s.roundrobin.val ((← get).linecount - 1))
          evictTables n pid removed fuel (f + 1)
      else
        robin
        evictTables n pid removed fuel f
    else
      return ()

def freespace (n : Nat) (pid : Int) : M Unit := do
  robin
  let s ← get
  let (f, removed) ← evictPages n pid loopFuel s.freeCount fun _ => false
  evictTables n pid removed loopFuel f

/-! ## The loops as straight-line code -/

namespace Frames

variable (f : Frames) (r : Fin 4)

/-- The first frame from `r` on that is not flagged as a page table, and `r` when all are. -/
def nextPage : Fin 4 :=
  (([r, r + 1, r + 2, r + 3] : List (Fin 4)).find? fun i => !f.ispagetable i).getD r

/-- The number of frames passed over on the way, four when all are flagged. -/
def passed : Nat :=
  ([r, r + 1, r + 2, r + 3] : List (Fin 4)).findIdx fun i => !f.ispagetable i

end Frames

theorem robin_ok {s : Machine} :
    robin.run s = .ok () (s.withFrames (s.toFrames.turnTo (s.roundrobin + 1))) := rfl

section Skip

variable {s : Machine} {p : Fin 4}

theorem skipTables_succ (fuel j : Nat) : (skipTables (fuel + 1) j).run s =
    if s.ispagetable s.roundrobin then
      if j + 1 = 4 then .ok (j + 1) (s.withFrames (s.toFrames.turnTo (s.roundrobin + 1)))
      else (skipTables fuel (j + 1)).run (s.withFrames (s.toFrames.turnTo (s.roundrobin + 1)))
    else .ok j s := by
  rw [skipTables, bind_of_ok get_run]
  split_ifs
  · rfl
  · rfl
  · rfl

theorem skipOwnTable_ok : (skipOwnTable p.val).run s =
    if s.hardware p = ⟨16 * s.roundrobin.val, .memory⟩ then
      .ok 1 (s.withFrames (s.toFrames.turnTo (s.roundrobin + 1)))
    else .ok 0 s := by
  rw [skipOwnTable, bind_of_ok (hardwareOf_ok p), bind_of_ok get_run]
  by_cases h : s.hardware p = ⟨16 * s.roundrobin.val, .memory⟩
  · rw [if_pos h, if_pos (by rw [h]; exact ⟨rfl, rfl⟩)]
    rfl
  · rw [if_neg h, if_neg]
    · rfl
    · intro hboth
      obtain ⟨ha, hm⟩ := hboth
      apply h
      cases hp : s.hardware p
      simp only [hp] at ha hm
      rw [ha, hm]

/-- Both tests together stop at the next frame that is not a page table, because the process's own
table is flagged like any other. -/
theorem skip_ok (hown : s.hardware p = ⟨16 * s.roundrobin.val, .memory⟩ →
      s.ispagetable s.roundrobin = true) :
    (do let j ← skipOwnTable p.val; skipTables 5 j : M Nat).run s =
      .ok (s.toFrames.passed s.roundrobin)
        (s.withFrames (s.toFrames.turnTo (s.toFrames.nextPage s.roundrobin))) := by
  have h2 : ∀ r : Fin 4, r + 1 + 1 = r + 2 := by decide
  have h3 : ∀ r : Fin 4, r + 2 + 1 = r + 3 := by decide
  have h4 : ∀ r : Fin 4, r + 3 + 1 = r := by decide
  rw [bind_run, skipOwnTable_ok]
  cases h0 : s.ispagetable s.roundrobin
  · have hne : ¬ s.hardware p = ⟨16 * s.roundrobin.val, .memory⟩ := fun h => by
      rw [hown h] at h0
      cases h0
    simp [hne, skipTables_succ, Frames.nextPage, Frames.passed, Frames.turnTo, h0,
      List.findIdx_cons]
    rfl
  · cases hb1 : s.ispagetable (s.roundrobin + 1) <;>
      cases hb2 : s.ispagetable (s.roundrobin + 2) <;>
      cases hb3 : s.ispagetable (s.roundrobin + 3) <;> split_ifs <;>
      simp [skipTables_succ, Frames.nextPage, Frames.passed, Frames.turnTo, h0, hb1, hb2, hb3,
        h2, h3, h4, List.findIdx_cons] <;> rfl

end Skip

/-! ### One iteration -/

/-- Frame `d` swapped out as the first loop of `freespace` does it. -/
def swapOutAt (d : Fin 4) : M Unit := do
  modify fun s => s.withFrames (s.toFrames.turnTo d)
  swapOutFrame
  say (.frameSwapped d.val (← get).linecount)
  robin

namespace Frames

variable (f : Frames) (r : Fin 4)

/-- The page table of a process is always flagged. -/
def OwnFlagged (p : Fin 4) : Prop :=
  ∀ i : Fin 4, f.hardware p = ⟨16 * i.val, .memory⟩ → f.ispagetable i = true

theorem nextPage_not_flagged {d : Fin 4} (hd : f.ispagetable d = false) :
    f.ispagetable (f.nextPage r) = false := by
  have key : ∀ (flag : Fin 4 → Bool) (r d : Fin 4), flag d = false →
      flag ((([r, r + 1, r + 2, r + 3] : List (Fin 4)).find? fun i => !flag i).getD r) = false := by
    decide
  exact key f.ispagetable r d hd

theorem nextPage_all_flagged (h : ∀ i, f.ispagetable i = true) : f.nextPage r = r := by
  simp [nextPage, h]

/-- From behind one frame that is not flagged, the next such frame is another one if there is. -/
theorem nextPage_succ {d i : Fin 4} (hi : f.ispagetable i = false) (hne : i ≠ d) :
    f.nextPage (d + 1) ≠ d := by
  have key : ∀ (flag : Fin 4 → Bool) (d i : Fin 4), flag i = false → i ≠ d →
      (([d + 1, d + 1 + 1, d + 1 + 2, d + 1 + 3] : List (Fin 4)).find? fun i => !flag i).getD
        (d + 1) ≠ d := by
    decide
  exact key f.ispagetable d i hi hne

theorem nextPage_only {d : Fin 4} (hd : f.ispagetable d = false)
    (honly : ∀ i, i ≠ d → f.ispagetable i = true) : f.nextPage r = d := by
  by_contra hne
  have h := f.nextPage_not_flagged r hd
  rw [honly _ hne] at h
  cases h

/-- Three frames are passed over only when the fourth is the only one that is not flagged. -/
theorem passed_ne_three {i : Fin 4} (hi : f.ispagetable i = false) (hne : i ≠ f.nextPage r) :
    f.passed r + 1 ≠ 4 := by
  have key : ∀ (flag : Fin 4 → Bool) (r i : Fin 4), flag i = false →
      i ≠ (([r, r + 1, r + 2, r + 3] : List (Fin 4)).find? fun i => !flag i).getD r →
      (([r, r + 1, r + 2, r + 3] : List (Fin 4)).findIdx fun i => !flag i) + 1 ≠ 4 := by
    decide
  exact key f.ispagetable r i hi hne

theorem passed_only {d : Fin 4} (hd : f.ispagetable d = false)
    (honly : ∀ i, i ≠ d → f.ispagetable i = true) : f.passed (d + 1) = 3 := by
  have key : ∀ (flag : Fin 4 → Bool) (d : Fin 4), flag d = false →
      (∀ i, i ≠ d → flag i = true) →
      (([d + 1, d + 1 + 1, d + 1 + 2, d + 1 + 3] : List (Fin 4)).findIdx fun i => !flag i) = 3 := by
    decide
  exact key f.ispagetable d hd honly

end Frames

section Iterations

variable {s : Machine} {p : Fin 4} {n f fuel : Nat} {removed : Fin 4 → Bool}

theorem evictPages_done (hfuel : 0 < fuel) (h : n ≤ f) :
    (evictPages n p.val fuel f removed).run s = .ok (f, removed) s := by
  obtain ⟨fuel, rfl⟩ := Nat.exists_eq_succ_of_ne_zero hfuel.ne'
  rw [evictPages, if_neg (by omega)]
  rfl

theorem evictTables_done (hfuel : 0 < fuel) (h : n ≤ f) :
    (evictTables n p.val removed fuel f).run s = .ok () s := by
  obtain ⟨fuel, rfl⟩ := Nat.exists_eq_succ_of_ne_zero hfuel.ne'
  rw [evictTables, if_neg (by omega)]
  rfl

theorem evictPages_next (hfuel : 0 < fuel) (hf : f < n) (hown : s.OwnFlagged p)
    (hremoved : removed (s.nextPage s.roundrobin) = false) :
    (evictPages n p.val fuel f removed).run s =
      (do
        swapOutAt (s.nextPage s.roundrobin)
        if s.passed s.roundrobin + 1 = 4 then
          return (f + 1, Function.update removed (s.nextPage s.roundrobin) true)
        else
          evictPages n p.val (fuel - 1) (f + 1)
            (Function.update removed (s.nextPage s.roundrobin) true) : M _).run s := by
  obtain ⟨fuel, rfl⟩ := Nat.exists_eq_succ_of_ne_zero hfuel.ne'
  have hskip := skip_ok (p := p) (hown s.roundrobin)
  rw [evictPages, if_pos hf, ← bind_assoc, bind_of_ok hskip, bind_of_ok get_run]
  simp only [Machine.withFrames_toFrames, Frames.turnTo, hremoved, ↓reduceIte]
  simp only [swapOutAt, bind_assoc]
  rw [bind_of_ok (modify_run _)]
  rfl

theorem evictPages_again (hfuel : 0 < fuel) (hf : f < n) (hown : s.OwnFlagged p)
    (hremoved : removed (s.nextPage s.roundrobin) = true) (hpassed : s.passed s.roundrobin = 3) :
    (evictPages n p.val fuel f removed).run s =
      .ok (f, removed)
        (s.withFrames (s.toFrames.turnTo (s.nextPage s.roundrobin + 1))) := by
  obtain ⟨fuel, rfl⟩ := Nat.exists_eq_succ_of_ne_zero hfuel.ne'
  have hskip := skip_ok (p := p) (hown s.roundrobin)
  rw [evictPages, if_pos hf, ← bind_assoc, bind_of_ok hskip, bind_of_ok get_run]
  simp only [Machine.withFrames_toFrames, Frames.turnTo, hremoved, hpassed]
  rfl

end Iterations

/-! ### The loops -/

namespace Machine

variable (s : Machine) (d : Fin 4)

/-- The call of `removePage` that swaps out frame `d`. -/
def removal : Call := .removePage (s.pages d) (16 * d.val) s.hardware

/-- The control data after frame `d` has been swapped out; the table entry is left out. -/
def evicted : Machine :=
  ((s.appendFrame d).withFrames ((s.toFrames.dropPage d).turnTo (d + 1))).noted (s.removal d)

/-- The machine after frame `d`, page `vp` of the table in frame `t`, has been swapped out. -/
def evictPage (t d : Fin 4) (vp : Nat) : Machine :=
  ((((s.withFrames (s.toFrames.turnTo d)).noted (s.removal d)).swapPage t d vp).printed
    (.frameSwapped d.val (s.linecount + 1))).withFrames ((s.toFrames.dropPage d).turnTo (d + 1))

end Machine

section Loops

variable {s : Machine} {p q t d i : Fin 4} {n : Nat}

theorem swapOutAt_turnTo (r : Fin 4) :
    (swapOutAt d).run (s.withFrames (s.toFrames.turnTo r)) = (swapOutAt d).run s := rfl

theorem swapOutAt_run : (swapOutAt d).run s =
    (do
      removePage (s.pages d) (16 * d.val)
      say (.frameSwapped d.val (← get).linecount)
      robin : M Unit).run ((s.withFrames (s.toFrames.turnTo d)).noted (s.removal d)) := by
  rw [swapOutAt, bind_of_ok (modify_run _), swapOutFrame, bind_assoc, bind_of_ok get_run,
    bind_assoc, bind_of_ok (note_ok _)]
  rfl

/-- Whatever the table of the owner says, swapping out a frame frees it and moves on. -/
theorem swapOutAt_spec (hp : s.pages d = q.val) (hq : s.hardware q = ⟨16 * t.val, .memory⟩) :
    wp (swapOutAt d)
      (fun _ u => s.linecount + 1 < 2 ^ 31 ∧ u.control = (s.evicted d).control)
      (fun e u => e.Real ∧ u.calls = s.calls ++ [s.removal d]) s := by
  have hq' : ((s.withFrames (s.toFrames.turnTo d)).noted (s.removal d)).hardware q =
      ⟨16 * t.val, .memory⟩ := hq
  unfold wp
  rw [swapOutAt_run, hp]
  show wp _ _ _ _
  rw [wp_bind]
  apply wp_imp (removePage_spec hq')
  intro _ u hpost
  obtain ⟨hbound, hu⟩ := hpost
  refine ⟨hbound, ?_⟩
  simp only [Machine.control, Prod.mk.injEq] at hu ⊢
  obtain ⟨hframes, hcalls, hcount, htext⟩ := hu
  have hcalls : (u.printed (.frameSwapped d.val u.linecount)).calls = (s.evicted d).calls := hcalls
  have hcount : (u.printed (.frameSwapped d.val u.linecount)).linecount = (s.evicted d).linecount :=
    hcount
  have htext : (u.printed (.frameSwapped d.val u.linecount)).swapspace = (s.evicted d).swapspace :=
    htext
  refine ⟨?_, hcalls, hcount, htext⟩
  show (u.toFrames.turnTo (u.roundrobin + 1)) = _
  rw [hframes]
  rfl

theorem swapOutAt_ok (hp : s.pages d = q.val) (hq : s.hardware q = ⟨16 * t.val, .memory⟩)
    (hd : s.Evictable t d) : (swapOutAt d).run s = .ok () (s.evictPage t d (s.search t d)) := by
  have hq' : ((s.withFrames (s.toFrames.turnTo d)).noted (s.removal d)).hardware q =
      ⟨16 * t.val, .memory⟩ := hq
  have hd' : ((s.withFrames (s.toFrames.turnTo d)).noted (s.removal d)).Evictable t d :=
    ⟨hd.search, hd.entry, hd.number⟩
  rw [swapOutAt_run, hp, bind_of_ok (removePage_ok hq' hd'), bind_of_ok get_run,
    bind_of_ok (say_ok _), robin_ok]
  rfl

theorem swapOutAt_overflow (hp : s.pages d = q.val) (hq : s.hardware q = ⟨16 * t.val, .memory⟩)
    (hsearch : 0 < t.val ∨ (s.byte (16 * t.val)).toNat ≠ 16 * d.val)
    (hnumber : ¬ s.linecount + 1 < 2 ^ 31) :
    (swapOutAt d).run s =
      .error .overflow ((s.withFrames (s.toFrames.turnTo d)).noted (s.removal d)) := by
  have hq' : ((s.withFrames (s.toFrames.turnTo d)).noted (s.removal d)).hardware q =
      ⟨16 * t.val, .memory⟩ := hq
  rw [swapOutAt_run, hp, bind_run, removePage_overflow hq' hsearch hnumber]

theorem swapOutAt_fault (hp : s.pages d = q.val) (hq : s.hardware q = ⟨16 * t.val, .memory⟩)
    (hd : ¬ s.Evictable t d) : ∃ e u, (swapOutAt d).run s = .error e u := by
  have hq' : ((s.withFrames (s.toFrames.turnTo d)).noted (s.removal d)).hardware q =
      ⟨16 * t.val, .memory⟩ := hq
  obtain ⟨e, u, hrun⟩ := removePage_fault hq' fun h => hd ⟨h.search, h.entry, h.number⟩
  rw [swapOutAt_run, hp, bind_run, hrun]
  exact ⟨e, u, rfl⟩

theorem freespace_run : (freespace n p.val).run s =
    (do
      let (f, removed) ← evictPages n p.val loopFuel s.freeCount fun _ => false
      evictTables n p.val removed loopFuel f : M Unit).run
      (s.withFrames (s.toFrames.turnTo (s.roundrobin + 1))) := by
  rw [freespace, bind_of_ok robin_ok, bind_of_ok get_run]
  rfl

theorem freespace_none (h : n ≤ s.freeCount) : (freespace n p.val).run s =
    .ok () (s.withFrames (s.toFrames.turnTo (s.roundrobin + 1))) := by
  rw [freespace_run, bind_of_ok (evictPages_done (by decide) h), evictTables_done (by decide) h]

/-- The first page that is swapped out when frames are missing. -/
theorem freespace_start (h : s.freeCount < n) (hown : s.OwnFlagged p)
    (hd : s.nextPage (s.roundrobin + 1) = d) : (freespace n p.val).run s =
    (do
      swapOutAt d
      let (f, removed) ← (if s.passed (s.roundrobin + 1) + 1 = 4 then
          pure (s.freeCount + 1, Function.update (fun _ => false) d true)
        else evictPages n p.val (loopFuel - 1) (s.freeCount + 1)
          (Function.update (fun _ => false) d true) : M (Nat × (Fin 4 → Bool)))
      evictTables n p.val removed loopFuel f : M Unit).run s := by
  subst hd
  have hloop : (evictPages n p.val loopFuel s.freeCount fun _ => false).run
      (s.withFrames (s.toFrames.turnTo (s.roundrobin + 1))) = _ :=
    evictPages_next (by decide) h hown rfl
  rw [freespace_run, bind_congr_run hloop, bind_assoc, bind_run, swapOutAt_turnTo, ← bind_run]
  rfl

/-- One frame is missing: the next page is swapped out, or the next frame when all are tables. -/
theorem freespace_one (h : s.freeCount + 1 = n) (hown : s.OwnFlagged p) :
    (freespace n p.val).run s = (swapOutAt (s.nextPage (s.roundrobin + 1))).run s := by
  rw [freespace_start (by omega) hown rfl, bind_eq_self (wp_of_forall fun _ u => ?_)]
  split_ifs
  · exact evictTables_done (by decide) (by omega)
  · rw [bind_of_ok (evictPages_done (by decide) (by omega))]
    exact evictTables_done (by decide) (by omega)

/-- Two frames are missing and there are two pages: both are swapped out. -/
theorem freespace_two (h : s.freeCount + 2 = n) (hown : s.OwnFlagged p)
    (hd : s.nextPage (s.roundrobin + 1) = d) (hi : s.ispagetable i = false) (hne : i ≠ d)
    (hp : s.pages d = q.val) (hq : s.hardware q = ⟨16 * t.val, .memory⟩) :
    (freespace n p.val).run s =
      (do
        swapOutAt d
        swapOutAt (s.nextPage (d + 1)) : M Unit).run s := by
  rw [freespace_start (by omega) hown hd]
  refine bind_congr_wp (wp_forget (swapOutAt_spec hp hq) ?_)
  intro _ u hpost
  obtain ⟨-, hu⟩ := hpost
  have hframes := control_toFrames hu
  have hrr : u.nextPage u.roundrobin = s.nextPage (d + 1) := by rw [hframes]; rfl
  have hown' : u.OwnFlagged p := by rw [hframes]; exact hown
  have hpassed := s.toFrames.passed_ne_three (s.roundrobin + 1) hi (hd ▸ hne)
  have hother : u.nextPage u.roundrobin ≠ d := by
    rw [hrr]
    exact s.toFrames.nextPage_succ hi hne
  have hloop : (evictPages n p.val (loopFuel - 1) (s.freeCount + 1)
      (Function.update (fun _ => false) d true)).run u = _ :=
    evictPages_next (by decide) (by omega) hown' (Function.update_of_ne hother _ _)
  rw [if_neg hpassed, bind_congr_run hloop, bind_assoc, bind_eq_self (wp_of_forall fun _ v => ?_),
    hrr]
  split_ifs
  · exact evictTables_done (by decide) (by omega)
  · rw [bind_of_ok (evictPages_done (by decide) (by omega))]
    exact evictTables_done (by decide) (by omega)

/-- The second loop at a page table of another process, with one frame missing. -/
theorem evictTables_table {removed : Fin 4 → Bool} {f fuel : Nat} (hfuel : 1 < fuel)
    (h : f + 1 = n) (hremoved : removed s.roundrobin = false)
    (hflag : s.ispagetable s.roundrobin = true)
    (hother : s.hardware p ≠ ⟨16 * s.roundrobin.val, .memory⟩) :
    (evictTables n p.val removed fuel f).run s =
      (do
        removePageTable (s.pages s.roundrobin)
        robin : M Unit).run s := by
  obtain ⟨fuel, rfl⟩ := Nat.exists_eq_succ_of_ne_zero (Nat.ne_of_gt (Nat.zero_lt_of_lt hfuel))
  rw [evictTables, if_pos (by omega), bind_run, skipOwnTable_ok, if_neg hother]
  dsimp only
  rw [bind_of_ok get_run, if_pos hremoved, if_pos hflag]
  refine bind_congr_wp (wp_of_forall fun _ u => ?_)
  exact bind_eq_self (wp_of_forall fun _ v => evictTables_done (by omega) (by omega))

/-- The same loop at the page table of the process itself, which it passes over. -/
theorem evictTables_own {removed : Fin 4 → Bool} {f fuel : Nat} (hfuel : 1 < fuel)
    (h : f + 1 = n) (hremoved : removed (s.roundrobin + 1) = false)
    (hflag : s.ispagetable (s.roundrobin + 1) = true)
    (hself : s.hardware p = ⟨16 * s.roundrobin.val, .memory⟩) :
    (evictTables n p.val removed fuel f).run s =
      (do
        robin
        removePageTable (s.pages (s.roundrobin + 1))
        robin : M Unit).run s := by
  obtain ⟨fuel, rfl⟩ := Nat.exists_eq_succ_of_ne_zero (Nat.ne_of_gt (Nat.zero_lt_of_lt hfuel))
  rw [evictTables, if_pos (by omega), bind_run, skipOwnTable_ok, if_pos hself, bind_of_ok robin_ok]
  dsimp only
  rw [bind_of_ok get_run]
  simp only [Machine.withFrames_toFrames, Frames.turnTo, hremoved, hflag, ↓reduceIte]
  refine bind_congr_wp (wp_of_forall fun _ u => ?_)
  exact bind_eq_self (wp_of_forall fun _ v => evictTables_done (by omega) (by omega))

/-- What comes after a frame has been swapped out only has to agree on the frames as they are then,
with the round robin behind that frame. -/
theorem swapOutAt_congr {f g : PUnit → M PUnit} (hp : s.pages d = q.val)
    (hq : s.hardware q = ⟨16 * t.val, .memory⟩)
    (hrest : ∀ u : Machine, u.toFrames = (s.evicted d).toFrames → u.roundrobin = d + 1 →
      (f ⟨⟩).run u = (g ⟨⟩).run u) : (swapOutAt d >>= f).run s = (swapOutAt d >>= g).run s := by
  refine bind_congr_wp (wp_forget (swapOutAt_spec hp hq) ?_)
  intro _ u hpost
  have hframes := control_toFrames hpost.2
  exact hrest u hframes (by rw [hframes]; rfl)

/-- Two frames are missing and there is one page: it is swapped out, and the second loop goes on
from the frame after it. -/
theorem freespace_last (h : s.freeCount + 2 = n) (hown : s.OwnFlagged p)
    (hd : s.ispagetable d = false) (honly : ∀ i, i ≠ d → s.ispagetable i = true)
    (hp : s.pages d = q.val) (hq : s.hardware q = ⟨16 * t.val, .memory⟩) :
    (freespace n p.val).run s =
      (do
        swapOutAt d
        evictTables n p.val (Function.update (fun _ => false) d true) loopFuel
          (s.freeCount + 1) : M Unit).run s := by
  rw [freespace_start (by omega) hown (s.toFrames.nextPage_only _ hd honly)]
  refine swapOutAt_congr hp hq fun u hframes hrr => ?_
  have hown' : u.OwnFlagged p := by rw [hframes]; exact hown
  split_ifs
  · rfl
  · have hnext : u.nextPage u.roundrobin = d := by
      rw [hframes]
      exact s.toFrames.nextPage_only _ hd honly
    have hpassed : u.passed u.roundrobin = 3 := by
      rw [hframes]
      exact s.toFrames.passed_only hd honly
    have hloop : (evictPages n p.val (loopFuel - 1) (s.freeCount + 1)
        (Function.update (fun _ => false) d true)).run u = _ :=
      evictPages_again (by decide) (by omega) hown'
        (by rw [hnext]; exact Function.update_self d _ _) hpassed
    rw [hnext, ← hrr] at hloop
    rw [bind_of_ok hloop]
    rfl

section LastPage

variable (h : s.freeCount + 2 = n) (hown : s.OwnFlagged p) (hd : s.ispagetable d = false)
  (honly : ∀ i, i ≠ d → s.ispagetable i = true) (hp : s.pages d = q.val)
  (hq : s.hardware q = ⟨16 * t.val, .memory⟩)

include h hown hd honly hp hq

/-- The page table in the frame after the last page goes as well. -/
theorem freespace_table (hother : s.hardware p ≠ ⟨16 * (d + 1 : Fin 4).val, .memory⟩) :
    (freespace n p.val).run s =
      (do
        swapOutAt d
        removePageTable (s.pages (d + 1))
        robin : M Unit).run s := by
  have hsucc : ∀ r : Fin 4, r + 1 ≠ r := by decide
  rw [freespace_last h hown hd honly hp hq]
  refine swapOutAt_congr hp hq fun u hframes hrr => ?_
  have hpages : u.pages u.roundrobin = s.pages (d + 1) := by
    rw [hframes]
    exact Function.update_of_ne (hsucc d) _ _
  have htables : (evictTables n p.val (Function.update (fun _ => false) d true) loopFuel
      (s.freeCount + 1)).run u = _ :=
    evictTables_table (by decide) (by omega)
      (by rw [hrr]; exact Function.update_of_ne (hsucc d) _ _)
      (by rw [hrr, hframes]; exact honly _ (hsucc d)) (by rw [hrr, hframes]; exact hother)
  rw [hpages] at htables
  exact htables

/-- Unless it is the one of the process itself: then the table behind it goes. -/
theorem freespace_own_table (hself : s.hardware p = ⟨16 * (d + 1 : Fin 4).val, .memory⟩) :
    (freespace n p.val).run s =
      (do
        swapOutAt d
        robin
        removePageTable (s.pages (d + 1 + 1))
        robin : M Unit).run s := by
  have hsucc : ∀ r : Fin 4, r + 1 + 1 ≠ r := by decide
  rw [freespace_last h hown hd honly hp hq]
  refine swapOutAt_congr hp hq fun u hframes hrr => ?_
  have hpages : u.pages (u.roundrobin + 1) = s.pages (d + 1 + 1) := by
    rw [hframes]
    exact Function.update_of_ne (hsucc d) _ _
  have htables : (evictTables n p.val (Function.update (fun _ => false) d true) loopFuel
      (s.freeCount + 1)).run u = _ :=
    evictTables_own (by decide) (by omega) (by rw [hrr]; exact Function.update_of_ne (hsucc d) _ _)
      (by rw [hrr, hframes]; exact honly _ (hsucc d)) (by rw [hrr, hframes]; exact hself)
  rw [hpages] at htables
  exact htables

end LastPage

end Loops

end Cs3013.Memory
