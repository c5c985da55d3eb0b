import Cs3013.Memory.SwapFile

/-!
# Translation and the four moves between memory and disk

`findpte` and `convert` read the page tables; `loadPageTable`, `loadPage`, `removePageTable`
and `removePage` move one frame. The results -1 and -2 are the error codes of the source.
-/
namespace Cs3013.Memory

open Cs3013.Library.Faulting

/-- `while (v > 16) { v -= 16; vpage++; }`; the fuel is at least the number of iterations. -/
def skipPages : Nat → Nat → Nat → Nat × Nat
  | 0, v, vpage => (v, vpage)
  | fuel + 1, v, vpage => if v > 16 then skipPages fuel (v - 16) (vpage + 1) else (v, vpage)

/-- The page number that `findpte` and `convert` compute, with the extra step at `v == 16`. -/
def vpageOf (vaddr : Nat) : Nat :=
  let (v, vpage) := skipPages vaddr vaddr 0
  if v = 16 then vpage + 1 else vpage

def findpte (pid : Int) (vaddr : Nat) : M Int := do
  let hp ← hardwareOf pid
  match hp.inmem with
  | .memory => return hp.address + 4 * vpageOf vaddr
  | .file => return -1
  | .unset => return -2

def findfree : M Int := do
  let s ← get
  match frameList.find? s.freelist with
  | some i =>
    setFreelist (16 * i.val) false
    return 16 * i.val
  | none => return -1

def loadPageTable (pid : Int) : M Int := do
  let hp ← hardwareOf pid
  let line := hp.address
  let free ← findfree
  note (.findfree free)
  let temp ← uninitialised
  let (_, temp) ← pageFromFile temp line
  swaptomem temp free
  setPages free pid
  setHardware pid ⟨free, .memory⟩
  setIspagetable free true
  say (.tableLoaded pid free)
  return free

def loadPage (pid : Int) (vaddr : Nat) : M Int := do
  let line ← peek ((← findpte pid vaddr) + 1)
  let free ← findfree
  note (.findfree free)
  let temp ← uninitialised
  let (_, temp) ← pageFromFile temp line.toNat
  swaptomem temp free
  setPages free pid
  poke ((← findpte pid vaddr) + 1) (UInt8.ofInt free)
  poke ((← findpte pid vaddr) + 3) 2
  say (.pageLoaded (vaddr / 16) pid free)
  return free

def removePageTable (pid : Int) : M Unit := do
  let pt ← findpte pid 0
  let line ← appendPage pt
  setHardware pid ⟨line, .file⟩
  setFreelist pt true
  setIspagetable pt false
  forM (List.range 16) fun (i : Nat) => poke (pt + i) 0
  setPages pt (-1)
  say (.tableSwapped pid)

/-- The search of `removePage` for the page that lies at `paddr`: the byte before the last
byte of the table that equals `paddr`. -/
def searchTable (pte paddr : Int) : M Nat :=
  (List.range 16).foldlM (fun vp (i : Nat) => do
    if ((← peek (pte + i)).toNat : Int) = paddr then
      return (← peek (pte + i - 1)).toNat
    else
      return vp) 0

def removePage (pid paddr : Int) : M Unit := do
  let pte ← findpte pid 0
  let vp ← searchTable pte paddr
  let fadr ← appendPage paddr
  poke (pte + 4 * vp + 1) (UInt8.ofNat fadr)
  poke (pte + 4 * vp + 3) 1
  forM (List.range 16) fun (i : Nat) => poke (paddr + i) 0
  setFreelist paddr true
  setPages paddr (-1)

def convert (vaddr : Nat) (pid : Int) : M Int := do
  let hp ← hardwareOf pid
  if hp.inmem = .memory then
    let vpage := vpageOf vaddr
    if (← peek (hp.address + 4 * vpage + 3)) = 0 then
      return -1
    else
      let pfn ← peek (hp.address + 4 * vpage + 1)
      let offset : Int := vaddr - 16 * vpage
      return pfn.toNat + offset
  else
    return -1

/-! ## Address translation -/

private theorem skipPages_spec : ∀ fuel v vpage, v ≤ fuel →
    (skipPages fuel v vpage).1 ≤ 16 ∧ (0 < v → 0 < (skipPages fuel v vpage).1) ∧
      16 * (skipPages fuel v vpage).2 + (skipPages fuel v vpage).1 = 16 * vpage + v := by
  intro fuel
  induction fuel with
  | zero =>
    intro v vpage hv
    exact ⟨hv.trans (by decide), id, rfl⟩
  | succ fuel ih =>
    intro v vpage hv
    rw [skipPages]
    by_cases h : v > 16
    · rw [if_pos h]
      obtain ⟨hle, hpos, hsum⟩ := ih (v - 16) (vpage + 1) (by omega)
      exact ⟨hle, fun _ => hpos (by omega), by omega⟩
    · rw [if_neg h]
      exact ⟨by simpa using h, id, rfl⟩

/-- The loop with its extra step computes the page number. -/
theorem vpageOf_eq (vaddr : Nat) : vpageOf vaddr = vaddr / 16 := by
  obtain ⟨hle, hpos, hsum⟩ := skipPages_spec vaddr vaddr 0 le_rfl
  unfold vpageOf
  dsimp only
  split <;> omega

section Views

variable {τ : Type} {view : Machine → τ} (pid : Int)

theorem hardwareOf_preserves : Preserves Fault.Real view (hardwareOf pid) :=
  (hardwareIndex_preserves pid).bind fun _ => .bind .get fun _ => .pure _

theorem findpte_preserves (vaddr : Nat) : Preserves Fault.Real view (findpte pid vaddr) := by
  refine (hardwareOf_preserves pid).bind fun hp => ?_
  split <;> exact .pure _

theorem convert_preserves (vaddr : Nat) : Preserves Fault.Real view (convert vaddr pid) := by
  refine (hardwareOf_preserves pid).bind fun hp => .ite ?_ (.pure _)
  exact (peek_preserves _).bind fun _ => .ite (.pure _) ((peek_preserves _).bind fun _ => .pure _)

end Views

section Tables

variable {s : Machine} {p t : Fin 4}

theorem findpte_memory (h : s.hardware p = ⟨16 * t.val, .memory⟩) (vaddr : Nat) :
    (findpte p.val vaddr).run s = .ok (16 * t.val + 4 * (vaddr / 16 : Nat)) s := by
  rw [findpte, bind_of_ok (hardwareOf_ok p), h, vpageOf_eq]
  rfl

/-- The page table itself. -/
theorem findpte_zero (h : s.hardware p = ⟨16 * t.val, .memory⟩) :
    (findpte p.val 0).run s = .ok (16 * t.val) s := by
  have h := findpte_memory h 0
  simpa using h

theorem findpte_file (h : (s.hardware p).inmem = .file) (vaddr : Nat) :
    (findpte p.val vaddr).run s = .ok (-1) s := by
  rw [findpte, bind_of_ok (hardwareOf_ok p), h]
  rfl

theorem findpte_unset (h : (s.hardware p).inmem = .unset) (vaddr : Nat) :
    (findpte p.val vaddr).run s = .ok (-2) s := by
  rw [findpte, bind_of_ok (hardwareOf_ok p), h]
  rfl

theorem convert_memory (h : s.hardware p = ⟨16 * t.val, .memory⟩) {vaddr : Nat}
    (hv : vaddr < 64) : (convert vaddr p.val).run s =
      .ok (if s.byte (16 * t.val + 4 * (vaddr / 16) + 3) = 0 then -1
        else (s.byte (16 * t.val + 4 * (vaddr / 16) + 1)).toNat + (vaddr % 16 : Nat)) s := by
  have hval := peek_eq (s := s) (i := 16 * t.val + 4 * (vaddr / 16 : Nat) + 3)
    (a := 16 * t.val + 4 * (vaddr / 16) + 3) (by push_cast; rfl) (by omega)
  have hpfn := peek_eq (s := s) (i := 16 * t.val + 4 * (vaddr / 16 : Nat) + 1)
    (a := 16 * t.val + 4 * (vaddr / 16) + 1) (by push_cast; rfl) (by omega)
  have hoff : (vaddr : Int) - 16 * (vaddr / 16 : Nat) = (vaddr % 16 : Nat) := by omega
  rw [convert, bind_of_ok (hardwareOf_ok p), h, vpageOf_eq]
  simp only [↓reduceIte]
  rw [bind_of_ok hval]
  split
  · rfl
  · rw [bind_of_ok hpfn, hoff]
    rfl

end Tables

section Frames

variable {s : Machine} {i : Fin 4}

theorem findfree_some (h : frameList.find? s.freelist = some i) :
    findfree.run s = .ok (16 * i.val) (s.withFrames (s.toFrames.take i)) := by
  rw [findfree, bind_of_ok get_run, h]
  simp only
  rw [bind_of_ok (setFreelist_ok i false)]
  rfl

theorem findfree_none (h : frameList.find? s.freelist = none) :
    findfree.run s = .ok (-1) s := by
  rw [findfree, bind_of_ok get_run, h]
  rfl

end Frames

/-! ## Moves of page tables -/

namespace Machine

variable (s : Machine) (p i t : Fin 4)

/-- The page table of `p` read from line `n` into frame `i`. -/
def loadTable (n : Nat) : Machine :=
  (((s.popped.writePage i (s.line n)).withFrames (s.toFrames.giveTable i p)).printed
    (.tableLoaded p.val (16 * i.val))).noted (.findfree (16 * i.val))

/-- The page table of `p` in frame `t` written to the next line. -/
def swapTable : Machine :=
  (((s.appendFrame t).writePage t zeroPage).withFrames
    (s.toFrames.dropTable t p s.linecount)).printed (.tableSwapped p.val)

end Machine

section Moves

variable {s : Machine} {p i t : Fin 4}

theorem loadPageTable_ok {n : Nat} (h : s.hardware p = ⟨n, .file⟩) (hn : n < s.linecount)
    (hfile : FileOk s) (hfree : frameList.find? s.freelist = some i) :
    (loadPageTable p.val).run s = .ok (16 * i.val) (s.loadTable p i n) := by
  rw [loadPageTable, bind_of_ok (hardwareOf_ok p), h]
  dsimp only
  rw [bind_of_ok (findfree_some hfree), bind_of_ok (note_ok _), bind_of_ok uninitialised_ok,
    bind_of_ok (pageFromFile_congr hfile ?_ ?_ _ hn)]
  · dsimp only
    rw [bind_of_ok (swaptomem_ok _ i), bind_of_ok (setPages_ok i _),
      bind_of_ok (setHardware_ok p _), bind_of_ok (setIspagetable_ok i true), bind_of_ok (say_ok _)]
    rfl
  · rfl
  · rfl

theorem removePageTable_ok (h : s.hardware p = ⟨16 * t.val, .memory⟩)
    (hbound : s.linecount + 1 < 2 ^ 31) :
    (removePageTable p.val).run s = .ok () (s.swapTable p t) := by
  rw [removePageTable, bind_of_ok (findpte_zero h), bind_of_ok (appendPage_ok hbound t),
    bind_of_ok (setHardware_ok p _), bind_of_ok (setFreelist_ok t true),
    bind_of_ok (setIspagetable_ok t false), bind_of_ok (clearFrame_ok t),
    bind_of_ok (setPages_ok t _), say_ok]
  rfl

theorem removePageTable_spec (h : s.hardware p = ⟨16 * t.val, .memory⟩) :
    wp (removePageTable p.val) (fun _ u => s.linecount + 1 < 2 ^ 31 ∧ u = s.swapTable p t)
      (fun e u => e = .overflow ∧ u = s) s := by
  by_cases hbound : s.linecount + 1 < 2 ^ 31
  · rw [wp_of_ok (removePageTable_ok h hbound)]
    exact ⟨hbound, rfl⟩
  · rw [removePageTable, wp_bind, wp_of_ok (findpte_zero h), wp_bind]
    apply wp_imp (appendPage_spec t)
    intro _ _ hpost
    obtain ⟨hlt, -, -⟩ := hpost
    exact absurd hlt hbound

end Moves

/-! ## Moves of pages -/

namespace Machine

variable (s : Machine) (p t i d : Fin 4)

/-- The search of `removePage` in the table in frame `t` for the page in frame `d`. -/
def search : Nat :=
  (List.range 16).foldl (fun vp o =>
    if (s.byte (16 * t.val + o)).toNat = 16 * d.val then (s.byte (16 * t.val + o - 1)).toNat
    else vp) 0

/-- `removePage` for frame `d`, with the owner's table in frame `t`, reads and writes inside of
`mem` and can number its line. -/
structure Evictable : Prop where
  search : 0 < t.val ∨ (s.byte (16 * t.val)).toNat ≠ 16 * d.val
  entry : 16 * t.val + 4 * s.search t d + 3 < 64
  number : s.linecount + 1 < 2 ^ 31

/-- Page `k` of `p`, whose table lies in frame `t`, read from line `n` into frame `i`. -/
def loadedPage (k n : Nat) : Machine :=
  ((((((s.popped.writePage i (s.line n)).withFrames (s.toFrames.givePage i p)).write
    (16 * t.val + 4 * k + 1) (UInt8.ofNat (16 * i.val))).write (16 * t.val + 4 * k + 3) 2).printed
    (.pageLoaded k p.val (16 * i.val))).noted (.findfree (16 * i.val)))

/-- The page in frame `d` written to the next line, recorded as page `vp` in the table in `t`. -/
def swapPage (vp : Nat) : Machine :=
  ((((s.appendFrame d).write (16 * t.val + 4 * vp + 1) (UInt8.ofNat s.linecount)).write
    (16 * t.val + 4 * vp + 3) 1).writePage d zeroPage).withFrames (s.toFrames.dropPage d)

end Machine

section PageMoves

variable {s : Machine} {p t i d : Fin 4}

theorem loadPage_ok (h : s.hardware p = ⟨16 * t.val, .memory⟩) {vaddr n : Nat} (hv : vaddr < 64)
    (hline : (s.byte (16 * t.val + 4 * (vaddr / 16) + 1)).toNat = n) (hn : n < s.linecount)
    (hfile : FileOk s) (hfree : frameList.find? s.freelist = some i) :
    (loadPage p.val vaddr).run s = .ok (16 * i.val) (s.loadedPage p t i (vaddr / 16) n) := by
  have hk : 16 * t.val + 4 * (vaddr / 16) + 3 < 64 := by omega
  have haddr : UInt8.ofInt (16 * (i.val : Int)) = UInt8.ofNat (16 * i.val) := by
    exact_mod_cast ofInt_natCast (16 * i.val)
  rw [loadPage, bind_of_ok (findpte_memory h vaddr),
    bind_of_ok (peek_eq (a := 16 * t.val + 4 * (vaddr / 16) + 1) (by push_cast; rfl) (by omega)),
    bind_of_ok (findfree_some hfree), bind_of_ok (note_ok _), bind_of_ok uninitialised_ok, hline,
    bind_of_ok (pageFromFile_congr hfile ?_ ?_ _ hn), bind_of_ok (swaptomem_ok _ i),
    bind_of_ok (setPages_ok i _), bind_of_ok (findpte_memory (t := t) ?_ vaddr),
    bind_of_ok (poke_eq (a := 16 * t.val + 4 * (vaddr / 16) + 1) (by push_cast; rfl) (by omega) _),
    bind_of_ok (findpte_memory (t := t) ?_ vaddr),
    bind_of_ok (poke_eq (a := 16 * t.val + 4 * (vaddr / 16) + 3) (by push_cast; rfl) hk _),
    bind_of_ok (say_ok _), haddr]
  · rfl
  · exact h
  · exact h
  · rfl
  · rfl

/-- Whatever the table says, `loadPage` gives the frame it found to `p`. -/
theorem loadPage_spec (h : s.hardware p = ⟨16 * t.val, .memory⟩) {vaddr : Nat} (hv : vaddr < 64)
    (hfree : frameList.find? s.freelist = some i) :
    wp (loadPage p.val vaddr)
      (fun r u => r = 16 * i.val ∧ u.control =
        ((s.withFrames (s.toFrames.givePage i p)).noted (.findfree (16 * i.val))).control)
      (fun e u => e.Real ∧ u.calls = s.calls ++ [.findfree (16 * i.val)]) s := by
  have hk : 16 * t.val + 4 * (vaddr / 16) + 3 < 64 := by omega
  simp only [loadPage, wp_bind]
  rw [wp_of_ok (findpte_memory h vaddr),
    wp_of_ok (peek_eq (a := 16 * t.val + 4 * (vaddr / 16) + 1) (by push_cast; rfl) (by omega)),
    wp_of_ok (findfree_some hfree), wp_of_ok (note_ok _), wp_of_ok uninitialised_ok]
  refine (pageFromFile_preserves _ _).wp (fun r u hu => ?_)
    (fun _ u he hu => ⟨he, control_calls hu⟩)
  have hu' : u.hardware p = ⟨16 * t.val, .memory⟩ := by rw [control_toFrames hu]; exact h
  rw [wp_of_ok (swaptomem_ok _ i), wp_of_ok (setPages_ok i _),
    wp_of_ok (findpte_memory (t := t) ?_ vaddr),
    wp_of_ok (poke_eq (a := 16 * t.val + 4 * (vaddr / 16) + 1) (by push_cast; rfl) (by omega) _),
    wp_of_ok (findpte_memory (t := t) ?_ vaddr),
    wp_of_ok (poke_eq (a := 16 * t.val + 4 * (vaddr / 16) + 3) (by push_cast; rfl) hk _),
    wp_of_ok (say_ok _), wp_pure]
  rotate_left
  · exact hu'
  · exact hu'
  refine ⟨rfl, ?_⟩
  simp only [Machine.control, Prod.mk.injEq] at hu
  obtain ⟨hframes, hcalls, hcount, htext⟩ := hu
  simp [Machine.control, hframes, hcalls, hcount, htext, Frames.givePage, Frames.take]

/-- The search reads `mem[pte - 1]` only where the first byte of the table equals the address, and
this is outside of `mem` for the first frame. -/
theorem searchTable_ok (h0 : 0 < t.val ∨ (s.byte (16 * t.val)).toNat ≠ 16 * d.val) :
    (searchTable (16 * t.val) (16 * d.val)).run s = .ok (s.search t d) s := by
  refine foldlM_eq_foldl _ s 0 fun o ho vp => ?_
  have ho16 : o < 16 := List.mem_range.mp ho
  rw [bind_of_ok (peek_eq (a := 16 * t.val + o) (by push_cast; rfl) (by omega))]
  by_cases hbyte : (s.byte (16 * t.val + o)).toNat = 16 * d.val
  · have hpos : 0 < 16 * t.val + o := by
      rcases Nat.eq_zero_or_pos o with rfl | hpos
      · rcases h0 with ht | hne
        · omega
        · exact absurd hbyte hne
      · omega
    have hcast : ((s.byte (16 * t.val + o)).toNat : Int) = 16 * d.val := by exact_mod_cast hbyte
    rw [if_pos hcast, if_pos hbyte,
      bind_of_ok (peek_eq (a := 16 * t.val + o - 1) (by omega) (by omega))]
    rfl
  · have hcast : ¬ ((s.byte (16 * t.val + o)).toNat : Int) = 16 * d.val := by exact_mod_cast hbyte
    rw [if_neg hcast, if_neg hbyte]
    rfl

theorem searchTable_fault (ht : t.val = 0) (h0 : (s.byte 0).toNat = 16 * d.val) :
    (searchTable (16 * t.val) (16 * d.val)).run s = .error (.mem (-1)) s := by
  have hcast : ((s.byte 0).toNat : Int) = 16 * d.val := by exact_mod_cast h0
  have hpeek : (peek (16 * (t.val : Int) + (0 : Nat))).run s = .ok (s.byte 0) s :=
    peek_eq (by omega) (by decide)
  rw [searchTable, List.range_succ_eq_map, List.foldlM_cons, bind_assoc, bind_of_ok hpeek,
    if_pos hcast, ht]
  rfl

theorem searchTable_preserves {τ : Type} {view : Machine → τ} (pte paddr : Int) :
    Preserves Fault.Real view (searchTable pte paddr) := by
  refine .foldlM _ (fun o _ vp => ?_) 0
  refine (peek_preserves _).bind fun b => ?_
  exact .ite ((peek_preserves _).bind fun _ => .pure _) (.pure _)

theorem removePage_ok (h : s.hardware p = ⟨16 * t.val, .memory⟩) (hd : s.Evictable t d) :
    (removePage p.val (16 * d.val)).run s = .ok () (s.swapPage t d (s.search t d)) := by
  have hentry := hd.entry
  rw [removePage, bind_of_ok (findpte_zero h), bind_of_ok (searchTable_ok hd.search),
    bind_of_ok (appendPage_ok hd.number d),
    bind_of_ok (poke_eq (a := 16 * t.val + 4 * s.search t d + 1) (by push_cast; rfl) (by omega) _),
    bind_of_ok (poke_eq (a := 16 * t.val + 4 * s.search t d + 3) (by push_cast; rfl) (by omega) _),
    bind_of_ok (clearFrame_ok d), bind_of_ok (setFreelist_ok d true), setPages_ok d _]
  rfl

theorem removePage_overflow (h : s.hardware p = ⟨16 * t.val, .memory⟩)
    (hsearch : 0 < t.val ∨ (s.byte (16 * t.val)).toNat ≠ 16 * d.val)
    (hnumber : ¬ s.linecount + 1 < 2 ^ 31) :
    (removePage p.val (16 * d.val)).run s = .error .overflow s := by
  rw [removePage, bind_of_ok (findpte_zero h), bind_of_ok (searchTable_ok hsearch), bind_run,
    appendPage_overflow hnumber d]

theorem removePage_fault (h : s.hardware p = ⟨16 * t.val, .memory⟩) (hd : ¬ s.Evictable t d) :
    ∃ e u, (removePage p.val (16 * d.val)).run s = .error e u := by
  by_cases hsearch : 0 < t.val ∨ (s.byte (16 * t.val)).toNat ≠ 16 * d.val
  · by_cases hnumber : s.linecount + 1 < 2 ^ 31
    · have hout : 64 ≤ 16 * t.val + 4 * s.search t d + 1 := by
        by_contra hin
        exact hd ⟨hsearch, by omega, hnumber⟩
      have hpoke := poke_fault (s := s.appendFrame d) (i := 16 * t.val + 4 * s.search t d + 1)
        (by push_cast; rfl) hout (UInt8.ofNat s.linecount)
      rw [removePage, bind_of_ok (findpte_zero h), bind_of_ok (searchTable_ok hsearch),
        bind_of_ok (appendPage_ok hnumber d), bind_run, hpoke]
      exact ⟨_, _, rfl⟩
    · exact ⟨_, _, removePage_overflow h hsearch hnumber⟩
  · simp only [not_or, not_lt, Nat.le_zero, Decidable.not_not] at hsearch
    obtain ⟨ht, hbyte⟩ := hsearch
    rw [ht, Nat.mul_zero] at hbyte
    rw [removePage, bind_of_ok (findpte_zero h), bind_run, searchTable_fault ht hbyte]
    exact ⟨_, _, rfl⟩

/-- Whatever the table says, `removePage` frees frame `d` and appends its bytes to the file. -/
theorem removePage_spec (h : s.hardware p = ⟨16 * t.val, .memory⟩) :
    wp (removePage p.val (16 * d.val))
      (fun _ u => s.linecount + 1 < 2 ^ 31 ∧
        u.control = ((s.appendFrame d).withFrames (s.toFrames.dropPage d)).control)
      (fun e u => e.Real ∧ u.calls = s.calls) s := by
  simp only [removePage, wp_bind]
  rw [wp_of_ok (findpte_zero h)]
  have hsearch :
      Preserves Fault.Real (id : Machine → Machine) (searchTable (16 * t.val) (16 * d.val)) :=
    searchTable_preserves _ _
  refine hsearch.wp ?_ (fun _ u he hu => ⟨he, congrArg Machine.calls hu⟩)
  intro vp u hu
  obtain rfl : u = s := hu
  refine wp_mono (appendPage_spec d) ?_
    (fun _ v hv => ⟨hv.1 ▸ Fault.real_overflow, congrArg Machine.calls hv.2⟩)
  intro line v hpost
  obtain ⟨hbound, -, rfl⟩ := hpost
  refine (poke_preserves _ _).wp (fun _ v hv => ?_)
    fun _ v he hv => ⟨he, (control_calls hv).trans rfl⟩
  refine (poke_preserves _ _).wp (fun _ w hw => ?_)
    fun _ w he hw => ⟨he, (control_calls (hw.trans hv)).trans rfl⟩
  rw [wp_of_ok (clearFrame_ok d), wp_of_ok (setFreelist_ok d true), wp_of_ok (setPages_ok d _)]
  refine ⟨hbound, ?_⟩
  have hcontrol := hw.trans hv
  simp only [Machine.control, Prod.mk.injEq] at hcontrol
  obtain ⟨hframes, hcalls, hcount, htext⟩ := hcontrol
  simp [Machine.control, hframes, hcalls, hcount, htext, Frames.dropPage]

end PageMoves

end Cs3013.Memory
