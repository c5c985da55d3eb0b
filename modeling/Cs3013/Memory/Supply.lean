import Cs3013.Memory.Stages

/-!
# What a command does to the frames

Whatever bytes the page tables hold, a command either stops or leaves the frames as one of
`supply`, `giveTable` or both of them leave them. The calls recorded on the way, also on the way
to a fault, name an owner whose page table is in memory, and a frame that was free.
-/
namespace Cs3013.Memory

open Cs3013.Library.Faulting

/-- `removePage` is called for a process whose table lies in a frame, and `findfree` has found
a frame. -/
def Call.Ok : Call → Prop
  | .removePage pid _ hardware => ∃ p t : Fin 4, pid = p.val ∧ hardware p = ⟨16 * t.val, .memory⟩
  | .findfree result => ∃ i : Fin 4, result = 16 * i.val

namespace Machine

def CallsOk (s : Machine) : Prop := ∀ c ∈ s.calls, c.Ok

/-- The swap file is well formed, and every page table in the file has its line there. -/
structure DiskOk (s : Machine) : Prop where
  file : FileOk s
  line : ∀ p, (s.hardware p).inmem = .file → ∃ n < s.linecount, s.hardware p = ⟨n, .file⟩

variable {s u : Machine}

theorem CallsOk.congr (h : s.CallsOk) (hu : u.calls = s.calls) : u.CallsOk := by
  rw [CallsOk, hu]
  exact h

theorem CallsOk.append (h : s.CallsOk) {c : Call} (hc : c.Ok) (hu : u.calls = s.calls ++ [c]) :
    u.CallsOk := by
  intro c' hc'
  rw [hu, List.mem_append, List.mem_singleton] at hc'
  rcases hc' with hc' | rfl
  · exact h c' hc'
  · exact hc

theorem DiskOk.congr (h : s.DiskOk) (htext : u.swapspace = s.swapspace)
    (hcount : u.linecount = s.linecount) (hhw : u.hardware = s.hardware) : u.DiskOk := by
  refine ⟨h.file.congr htext hcount, fun p hp => ?_⟩
  rw [hcount, hhw]
  rw [hhw] at hp
  exact h.line p hp

theorem DiskOk.control (h : s.DiskOk) (hu : u.control = s.control) : u.DiskOk :=
  h.congr (control_swapspace hu) (control_linecount hu)
    (congrArg Frames.hardware (control_toFrames hu))

end Machine

open Machine

namespace Machine

/-- Byte `o` of the page table of `p`, wherever the table is. -/
def tableByte (s : Machine) (p : Fin 4) (o : Nat) : UInt8 :=
  match s.hardware p with
  | ⟨address, .memory⟩ => s.byte (address.toNat + o)
  | ⟨line, .file⟩ => (s.line line.toNat).byte o
  | ⟨_, .unset⟩ => 0

/-- The valid/present byte of the entry for `vaddr`. -/
def valpres (s : Machine) (p : Fin 4) (vaddr : Nat) : UInt8 := s.tableByte p (4 * (vaddr / 16) + 3)

variable {s : Machine} {p t : Fin 4}

theorem tableByte_memory (h : s.TableAt p t) (o : Nat) :
    s.tableByte p o = s.byte (16 * t.val + o) := by
  have hcast : (16 * (t.val : Int)).toNat = 16 * t.val := by omega
  rw [tableByte, h]
  dsimp only
  rw [hcast]

/-- The bytes of the entry for `vaddr` are in reach. -/
theorem peek_entry (h : s.TableAt p t) {vaddr j : Nat} (hv : vaddr < 64) (hj : j < 4) {i : Int}
    (hi : i = 16 * t.val + 4 * (vaddr / 16 : Nat) + j) :
    (peek i).run s = .ok (s.tableByte p (4 * (vaddr / 16) + j)) s := by
  rw [tableByte_memory h]
  refine peek_eq ?_ (by omega)
  rw [hi]
  push_cast
  omega

theorem peek_valpres (h : s.TableAt p t) {vaddr : Nat} (hv : vaddr < 64) :
    (peek (16 * t.val + 4 * (vaddr / 16 : Nat) + 3)).run s = .ok (s.valpres p vaddr) s :=
  peek_entry h hv (j := 3) (by decide) rfl

theorem tableByte_file {n : Nat} (h : s.hardware p = ⟨n, .file⟩) (o : Nat) :
    s.tableByte p o = (s.line n).byte o := by
  rw [tableByte, h]
  rfl

theorem tableByte_unset (h : (s.hardware p).inmem = .unset) (o : Nat) : s.tableByte p o = 0 := by
  rw [tableByte]
  split <;> simp_all

end Machine

/-! ## Specifications -/

section Rules

variable {α β : Type} {m : M α} {f : α → M β} {s : Machine} {Q Q' : α → Machine → Prop}
  {R : β → Machine → Prop}

/-- The program stops after proper calls, or it ends with `Q`, a proper file and proper calls. -/
def Yields (m : M α) (s : Machine) (Q : α → Machine → Prop) : Prop :=
  wp m (fun a u => Q a u ∧ u.DiskOk ∧ u.CallsOk) (fun e u => e.Real ∧ u.CallsOk) s

theorem Yields.bind (hm : Yields m s Q)
    (hf : ∀ a u, Q a u → u.DiskOk → u.CallsOk → Yields (f a) u R) : Yields (m >>= f) s R :=
  wp_seq hm fun a u h => hf a u h.1 h.2.1 h.2.2

theorem Yields.of_run {a : α} {u : Machine} (h : m.run s = .ok a u) (hQ : Q a u)
    (hdisk : u.DiskOk) (hcalls : u.CallsOk) : Yields m s Q :=
  (wp_of_ok h).mpr ⟨hQ, hdisk, hcalls⟩

theorem Yields.mono (h : Yields m s Q) (hQ : ∀ a u, Q a u → Q' a u) : Yields m s Q' :=
  wp_mono h (fun a u hu => ⟨hQ a u hu.1, hu.2⟩) fun _ _ hu => hu

theorem Yields.congr {m' : M α} (h : m.run s = m'.run s) (h' : Yields m' s Q) : Yields m s Q :=
  wp_congr h h'

/-- Steps that have a known effect in front of the rest. -/
theorem Yields.step {a : α} {u : Machine} (h : m.run s = .ok a u) (hf : Yields (f a) u R) :
    Yields (m >>= f) s R :=
  wp_step h hf

theorem Yields.of_preserves (hm : Preserves Fault.Real Machine.control m) (hdisk : s.DiskOk)
    (hcalls : s.CallsOk) : Yields m s fun _ u => u.control = s.control :=
  hm.wp (fun _ _ hu => ⟨hu, hdisk.control hu, hcalls.congr (control_calls hu)⟩)
    fun _ _ he hu => ⟨he, hcalls.congr (control_calls hu)⟩

end Rules

section Frames

variable {s : Machine} {p q t d : Fin 4}

theorem evicted_grows (h : FileOk s) (hbound : s.linecount + 1 < 2 ^ 31) (d : Fin 4) :
    FileGrows s (s.evicted d) :=
  (appendFrame_grows h hbound d).trans ((appendFrame_grows h hbound d).ok.grows rfl rfl)

theorem evicted_disk (h : s.DiskOk) (hbound : s.linecount + 1 < 2 ^ 31) (d : Fin 4) :
    (s.evicted d).DiskOk := by
  refine ⟨(evicted_grows h.file hbound d).ok, fun p hp => ?_⟩
  obtain ⟨n, hn, hline⟩ := h.line p hp
  exact ⟨n, Nat.lt_succ_of_lt hn, hline⟩

theorem FileGrows.control {u v : Machine} (h : FileGrows s u) (hv : v.control = u.control) :
    FileGrows s v :=
  h.trans (h.ok.grows (control_swapspace hv) (control_linecount hv))

theorem swapOutAt_yields (hdisk : s.DiskOk) (hcalls : s.CallsOk) (hp : s.pages d = q.val)
    (hq : s.TableAt q t) :
    Yields (swapOutAt d) s fun _ u => u.toFrames = s.toFrames.evict d ∧ FileGrows s u := by
  have hok : (s.removal d).Ok := ⟨q, t, hp, hq⟩
  refine wp_mono (swapOutAt_spec hp hq) ?_ fun _ u hu => ⟨hu.1, hcalls.append hok hu.2⟩
  intro _ u hpost
  obtain ⟨hbound, hu⟩ := hpost
  exact ⟨⟨control_toFrames hu, (evicted_grows hdisk.file hbound d).control hu⟩,
    (evicted_disk hdisk hbound d).control hu, hcalls.append hok (control_calls hu)⟩

/-- With no free frame, `freespace(1, pid)` swaps out the next frame in turn. -/
theorem freespace_yields (hdisk : s.DiskOk) (hcalls : s.CallsOk) (hready : s.Ready)
    (hused : ∀ i, s.freelist i = false) (p : Fin 4) :
    Yields (freespace 1 p.val) s fun _ u =>
      u.toFrames = s.toFrames.evict s.victim ∧ FileGrows s u := by
  obtain ⟨q, t, hq, ht⟩ := hready.owner hused s.victim
  have hcount : s.freeCount + 1 = 1 := by rw [Frames.freeCount_eq_zero hused]
  exact .congr (freespace_one hcount (hready.ownFlagged p)) (swapOutAt_yields hdisk hcalls hq ht)

theorem loadPage_yields {i : Fin 4} {vaddr : Nat} (hdisk : s.DiskOk) (hcalls : s.CallsOk)
    (hp : s.TableAt p t) (hv : vaddr < 64) (hfree : frameList.find? s.freelist = some i) :
    Yields (loadPage p.val vaddr) s fun _ u => u.toFrames = s.toFrames.givePage i p := by
  have hok : (Call.findfree (16 * i.val)).Ok := ⟨i, rfl⟩
  refine wp_mono (loadPage_spec hp hv hfree) ?_ fun _ u hu => ⟨hu.1, hcalls.append hok hu.2⟩
  intro _ u hpost
  obtain ⟨-, hu⟩ := hpost
  exact ⟨control_toFrames hu,
    (hdisk.congr (u := (s.withFrames (s.toFrames.givePage i p)).noted _) rfl rfl rfl).control hu,
    hcalls.append hok (control_calls hu)⟩

/-- `if (f) loadPage(pid,vaddr); else { freespace(1,pid); loadPage(pid,vaddr); }` -/
theorem loadPage_supply {vaddr : Nat} (hdisk : s.DiskOk) (hcalls : s.CallsOk) (hready : s.Ready)
    (hp : s.TableAt p t) (hv : vaddr < 64) (hused : ∀ i, s.freelist i = false) :
    Yields (do freespace 1 p.val; loadPage p.val vaddr : M Int) s
      fun _ u => u.toFrames = s.toFrames.supply p := by
  refine (freespace_yields hdisk hcalls hready hused p).bind fun _ u ⟨hu, _⟩ hdisk hcalls => ?_
  have hfree : frameList.find? u.freelist = some s.victim := by
    rw [hu]
    exact Frames.find?_evict hused
  have hp' : u.TableAt p t := by
    rw [hu]
    exact hp
  refine (loadPage_yields hdisk hcalls hp' hv hfree).mono fun _ v hv => ?_
  rw [hv, hu, Frames.supply, Frames.find?_eq_none hused]

theorem obtainFrame_yields (hdisk : s.DiskOk) (hcalls : s.CallsOk) (hready : s.Ready) (p : Fin 4) :
    Yields (obtainFrame p.val) s fun r u => ∃ i : Fin 4, r = 16 * i.val ∧
      u.toFrames.enter i p = s.toFrames.supply p := by
  cases hfind : frameList.find? s.freelist with
  | some i =>
    have hpos : ¬ (16 * (i.val : Int)) < 0 := by omega
    refine .step (findfree_some hfind) ?_
    rw [if_neg hpos]
    refine .of_run (pure_run _) ⟨i, rfl, ?_⟩ (hdisk.congr rfl rfl rfl) (hcalls.congr rfl)
    rw [Frames.supply, hfind]
    rfl
  | none =>
    have hused := Frames.used_of_find?_none hfind
    refine .step (findfree_none hfind) ?_
    rw [if_pos (by decide)]
    refine (freespace_yields hdisk hcalls hready hused p).bind ?_
    rintro _ u ⟨hu, -⟩ hdisk hcalls
    have hfree : frameList.find? u.freelist = some s.victim := by
      rw [hu]
      exact Frames.find?_evict hused
    refine .step (findfree_some hfree) (.step (note_ok _) ?_)
    refine .of_run (pure_run _) ⟨s.victim, rfl, ?_⟩ (hdisk.congr rfl rfl rfl)
      (hcalls.append (c := .findfree (16 * s.victim.val)) ⟨s.victim, rfl⟩ rfl)
    rw [Frames.supply, hfind, ← hu]
    rfl

end Frames

section Commands

variable {s : Machine} {p t : Fin 4} {vaddr : Nat} {val : UInt8}

/-- A frame for a page is taken unless the page is present. -/
theorem mapPage_yields (hdisk : s.DiskOk) (hcalls : s.CallsOk) (hready : s.Ready)
    (hp : s.TableAt p t) (hv : vaddr < 64) :
    Yields (mapPage p.val vaddr val) s fun _ u =>
      u.toFrames = if s.valpres p vaddr = 2 then s.toFrames else s.toFrames.supply p := by
  refine .step (findpte_memory hp vaddr) (.step (peek_valpres hp hv) ?_)
  by_cases hpresent : s.valpres p vaddr = 2
  · rw [if_pos hpresent, if_pos hpresent]
    refine (Yields.of_preserves ?_ hdisk hcalls).mono fun _ u hu => control_toFrames hu
    refine (peek_preserves _).bind fun _ => .ite ?_ ?_
    · exact (say_preserves _).bind fun _ => .pure _
    · exact (say_preserves _).bind fun _ => (poke_preserves _ _).bind fun _ => .pure _
  · rw [if_neg hpresent, if_neg hpresent]
    refine (obtainFrame_yields hdisk hcalls hready p).bind ?_
    intro _ u hpost hdisk hcalls
    obtain ⟨i, rfl, hu⟩ := hpost
    refine .step (setPages_ok i _) ?_
    refine (Yields.of_preserves (s := u.withFrames (u.toFrames.enter i p)) ?_
      (hdisk.congr rfl rfl rfl) (hcalls.congr rfl)).mono fun _ v hv =>
        (control_toFrames hv).trans hu
    refine (peek_preserves _).bind fun _ => (say_preserves _).bind fun _ => ?_
    exact (poke_preserves _ _).bind fun _ => (poke_preserves _ _).bind fun _ =>
      (poke_preserves _ _).bind fun _ => .pure _

theorem any_of_find?_some {free : Fin 4 → Bool} {i : Fin 4}
    (h : frameList.find? free = some i) : frameList.any free = true :=
  List.any_eq_true.mpr ⟨i, List.mem_of_find?_eq_some h, List.find?_some h⟩

theorem not_any_of_used {free : Fin 4 → Bool} (h : ∀ i, free i = false) :
    ¬ frameList.any free = true := by
  simp [h]

/-- `load` brings in a page that is on disk and changes no frame otherwise. -/
theorem load_yields (hdisk : s.DiskOk) (hcalls : s.CallsOk) (hready : s.Ready)
    (hp : s.TableAt p t) (hv : vaddr < 64) :
    Yields (load p.val vaddr val) s fun _ u =>
      u.toFrames = if s.valpres p vaddr = 1 then s.toFrames.supply p else s.toFrames := by
  have hpte : (16 * (t.val : Int) + 4 * (vaddr / 16 : Nat)) ≥ 0 := by omega
  refine .step (findpte_memory hp vaddr) ?_
  rw [if_pos hpte]
  refine .step (peek_valpres hp hv) ?_
  have htail : Preserves Fault.Real Machine.control (do
      let paddr ← convert vaddr p.val
      if paddr > 0 then
        say (.value vaddr (← peek paddr))
        return 1
      else
        return 0 : M Int) :=
    (convert_preserves _ _).bind fun _ => .ite
      ((peek_preserves _).bind fun _ => (say_preserves _).bind fun _ => .pure _) (.pure _)
  by_cases hdisk1 : s.valpres p vaddr = 1
  · rw [if_pos hdisk1, if_pos hdisk1]
    refine .step get_run ?_
    cases hfind : frameList.find? s.freelist with
    | some i =>
      rw [if_pos (any_of_find?_some hfind)]
      refine (loadPage_yields hdisk hcalls hp hv hfind).bind fun _ u hu hdisk hcalls => ?_
      refine (Yields.of_preserves htail hdisk hcalls).mono fun _ v hv => ?_
      rw [control_toFrames hv, hu, Frames.supply, hfind]
    | none =>
      have hused := Frames.used_of_find?_none hfind
      rw [if_neg (not_any_of_used hused), ← bind_assoc]
      refine (loadPage_supply hdisk hcalls hready hp hv hused).bind fun _ u hu hdisk hcalls => ?_
      refine (Yields.of_preserves htail hdisk hcalls).mono fun _ v hv => ?_
      rw [control_toFrames hv, hu]
  · rw [if_neg hdisk1, if_neg hdisk1]
    refine (Yields.of_preserves ?_ hdisk hcalls).mono fun _ u hu => control_toFrames hu
    refine .ite ?_ ?_
    · exact (convert_preserves _ _).bind fun _ => (peek_preserves _).bind fun _ =>
        (say_preserves _).bind fun _ => .pure _
    · exact (convert_preserves _ _).bind fun _ => (peek_preserves _).bind fun _ =>
        (say_preserves _).bind fun _ => .pure _

end Commands

/-! ## Page tables from the file and new page tables -/

namespace Machine

variable (s : Machine) (p i : Fin 4)

/-- The loop of `map` over the entries of a new page table. -/
def clearTable : Machine :=
  (List.range 4).foldl (fun t k =>
    (t.write (16 * i.val + 4 * k) (UInt8.ofNat k)).write (16 * i.val + 4 * k + 3) 0) s

/-- A new page table for `p` in frame `i`. -/
def newTable : Machine :=
  clearTable (((s.withFrames (s.toFrames.giveTable i p)).noted (.findfree (16 * i.val))).printed
    (.tableCreated p.val (16 * i.val))) i

private theorem foldl_entries (n : Nat) (hn : n ≤ 4) (b : Nat) :
    ((List.range n).foldl (fun t k =>
      (Machine.write t (16 * i.val + 4 * k) (UInt8.ofNat k)).write (16 * i.val + 4 * k + 3) 0)
        s).byte b =
      if 16 * i.val ≤ b ∧ b < 16 * i.val + 4 * n then
        if b % 4 = 0 then UInt8.ofNat ((b - 16 * i.val) / 4) else if b % 4 = 3 then 0 else s.byte b
      else s.byte b := by
  induction n with
  | zero =>
    have h : ¬ (16 * i.val ≤ b ∧ b < 16 * i.val + 4 * 0) := by omega
    rw [if_neg h]
    rfl
  | succ n ih =>
    rw [List.range_succ, List.foldl_append, List.foldl_cons, List.foldl_nil,
      byte_write _ (by omega), byte_write _ (by omega), ih (by omega)]
    by_cases h3 : b = 16 * i.val + 4 * n + 3
    · have hin : 16 * i.val ≤ b ∧ b < 16 * i.val + 4 * (n + 1) := by omega
      have h0 : ¬ b % 4 = 0 := by omega
      rw [if_pos h3, if_pos hin, if_neg h0, if_pos (by omega)]
    · by_cases h0 : b = 16 * i.val + 4 * n
      · have hin : 16 * i.val ≤ b ∧ b < 16 * i.val + 4 * (n + 1) := by omega
        have hk : (b - 16 * i.val) / 4 = n := by omega
        rw [if_neg h3, if_pos h0, if_pos hin, if_pos (by omega), hk]
      · rw [if_neg h3, if_neg h0]
        by_cases hin : 16 * i.val ≤ b ∧ b < 16 * i.val + 4 * n
        · have hin' : 16 * i.val ≤ b ∧ b < 16 * i.val + 4 * (n + 1) := ⟨hin.1, by omega⟩
          rw [if_pos hin, if_pos hin']
        · rw [if_neg hin]
          by_cases hin' : 16 * i.val ≤ b ∧ b < 16 * i.val + 4 * (n + 1)
          · rw [if_pos hin', if_neg (by omega), if_neg (by omega)]
          · rw [if_neg hin']

theorem byte_clearTable (b : Nat) : (s.clearTable i).byte b =
    if 16 * i.val ≤ b ∧ b < 16 * i.val + 16 then
      if b % 4 = 0 then UInt8.ofNat ((b - 16 * i.val) / 4) else if b % 4 = 3 then 0 else s.byte b
    else s.byte b :=
  foldl_entries s i 4 le_rfl b

/-- Writing bytes leaves everything else alone. -/
private theorem foldl_rest {τ : Type} (view : Machine → τ)
    (hview : ∀ s a v, view (Machine.write s a v) = view s) (l : List Nat) :
    view (l.foldl (fun t k =>
      (Machine.write t (16 * i.val + 4 * k) (UInt8.ofNat k)).write (16 * i.val + 4 * k + 3) 0)
        s) = view s := by
  induction l generalizing s with
  | nil => rfl
  | cons k l ih => rw [List.foldl_cons, ih, hview, hview]

theorem clearTable_control : (s.clearTable i).control = s.control :=
  foldl_rest s i Machine.control (fun _ _ _ => rfl) _

theorem newTable_out :
    (s.newTable p i).out = s.out ++ [.tableCreated p.val (16 * i.val)] :=
  foldl_rest _ i Machine.out (fun _ _ _ => rfl) _

theorem newTable_control : (s.newTable p i).control =
    ((s.withFrames (s.toFrames.giveTable i p)).noted (.findfree (16 * i.val))).control :=
  clearTable_control _ i

theorem newTable_toFrames : (s.newTable p i).toFrames = s.toFrames.giveTable i p :=
  control_toFrames (newTable_control s p i)

end Machine

section Tables

variable {s : Machine} {p q i t : Fin 4} {vaddr : Nat}

/-- The creation of a page table, after `freespace(2, pid)` has made room. -/
theorem newTable_ok (hfree : frameList.find? s.freelist = some i) :
    (do
      let free ← findfree
      note (.findfree free)
      say (.tableCreated p.val free)
      setHardware p.val ⟨free, .memory⟩
      setPages free p.val
      setIspagetable free true
      forM (List.range 4) fun (i : Nat) => do
        let hp ← hardwareOf p.val
        poke (hp.address + 4 * i) (UInt8.ofNat i)
        poke (hp.address + 4 * i + 3) 0 : M Unit).run s = .ok () (s.newTable p i) := by
  rw [bind_of_ok (findfree_some hfree), bind_of_ok (note_ok _), bind_of_ok (say_ok _),
    bind_of_ok (setHardware_ok p _), bind_of_ok (setPages_ok i _),
    bind_of_ok (setIspagetable_ok i true)]
  show (forM _ _ : M Unit).run (((s.withFrames (s.toFrames.giveTable i p)).noted
    (.findfree (16 * i.val))).printed (.tableCreated p.val (16 * i.val))) = _
  rw [newTable, clearTable]
  refine forM_eq_foldl_of_invariant (I := fun u => u.TableAt p i) _ ?_ Frames.giveTable_tableAt
  intro k hk u hu
  have hk4 := List.mem_range.mp hk
  refine ⟨?_, hu⟩
  rw [bind_of_ok (hardwareOf_ok p), hu,
    bind_of_ok (poke_eq (a := 16 * i.val + 4 * k) (by push_cast; rfl) (by omega) _),
    poke_eq (a := 16 * i.val + 4 * k + 3) (by push_cast; rfl) (by omega) _]

/-- A table that is put into a frame leaves the lines of the other tables alone. -/
theorem Machine.DiskOk.giveTable {u : Machine} (h : s.DiskOk) (htext : u.swapspace = s.swapspace)
    (hcount : u.linecount = s.linecount) (hframes : u.toFrames = s.toFrames.giveTable i p) :
    u.DiskOk := by
  refine ⟨h.file.congr htext hcount, fun q hq => ?_⟩
  rw [hframes] at hq ⊢
  have hqp : q ≠ p := by
    intro heq
    subst heq
    cases Frames.giveTable_tableAt.inmem.symm.trans hq
  have hsame : (s.toFrames.giveTable i p).hardware q = s.hardware q := Function.update_of_ne hqp _ _
  rw [hsame] at hq ⊢
  rw [hcount]
  exact h.line q hq

theorem newTable_disk (h : s.DiskOk) : (s.newTable p i).DiskOk :=
  h.giveTable ((control_swapspace (newTable_control s p i)).trans rfl)
    ((control_linecount (newTable_control s p i)).trans rfl) (newTable_toFrames s p i)

theorem newTable_calls : (s.newTable p i).calls = s.calls ++ [.findfree (16 * i.val)] :=
  control_calls (newTable_control s p i)

/-- No page of a new page table is present. -/
theorem newTable_valpres (hv : vaddr < 64) : (s.newTable p i).valpres p vaddr = 0 := by
  have hp : (s.newTable p i).TableAt p i := by
    rw [newTable_toFrames]
    exact Frames.giveTable_tableAt
  have hin : 16 * i.val ≤ 16 * i.val + (4 * (vaddr / 16) + 3) ∧
      16 * i.val + (4 * (vaddr / 16) + 3) < 16 * i.val + 16 := by omega
  rw [valpres, tableByte_memory hp, newTable, byte_clearTable, if_pos hin, if_neg (by omega),
    if_pos (by omega)]

theorem swapTable_disk (h : s.DiskOk) (hbound : s.linecount + 1 < 2 ^ 31) :
    (s.swapTable q t).DiskOk := by
  refine ⟨(appendFrame_grows h.file hbound t).ok.congr rfl rfl, fun p hp => ?_⟩
  by_cases hpq : p = q
  · subst hpq
    exact ⟨s.linecount, Nat.lt_succ_self _, Function.update_self _ _ _⟩
  · have hsame : (s.swapTable q t).hardware p = s.hardware p := Function.update_of_ne hpq _ _
    rw [hsame] at hp ⊢
    obtain ⟨n, hn, hline⟩ := h.line p hp
    exact ⟨n, Nat.lt_succ_of_lt hn, hline⟩

/-- After the first pages of one process, the last of three has to leave. -/
theorem freespace_starting (hdisk : s.DiskOk) (hcalls : s.CallsOk) (hpq : p ≠ q)
    (h : s.toFrames = Frames.starting q 2 ∨ s.toFrames = Frames.starting q 3) :
    Yields (freespace 2 p.val) s fun _ u => u.Roomy p := by
  rcases h with h | h
  · have hcount : s.freeCount = 2 := by
      rw [h]
      exact Frames.starting_freeCount q 2
    refine .of_run (freespace_none hcount.ge) ?_ (hdisk.congr rfl rfl rfl) (hcalls.congr rfl)
    rw [Machine.withFrames_toFrames, h]
    exact Frames.starting_roomy_two hpq
  · have hcount : s.freeCount + 1 = 2 := by
      rw [h]
      exact congrArg (· + 1) (Frames.starting_freeCount q 3)
    have howned : s.Owned := by
      rw [h]
      exact Frames.starting_owned q (by decide)
    have hq : s.TableAt q 0 := by
      rw [h]
      exact Frames.starting_tableAt q 3
    have hvictim : s.victim = 2 := by
      rw [h]
      rfl
    have hpages : s.pages s.victim = q.val := by
      rw [hvictim, h]
      rfl
    apply Yields.congr (freespace_one hcount (howned.ownFlagged p))
    refine (swapOutAt_yields hdisk hcalls hpages hq).mono fun _ u ⟨hu, _⟩ => ?_
    rw [hu, hvictim, h]
    exact Frames.starting_roomy_three hpq

/-- With one page left among three page tables, the page and the table behind it leave. -/
theorem freespace_only (hdisk : s.DiskOk) (hcalls : s.CallsOk) (h : s.Full)
    (hp : (s.hardware p).inmem = .unset) (honly : ∀ i, i ≠ s.victim → s.ispagetable i = true) :
    Yields (freespace 2 p.val) s fun _ u => u.Roomy p := by
  have hcount : s.freeCount + 2 = 2 := by rw [Frames.freeCount_eq_zero h.used]
  have hsucc : ∀ d : Fin 4, d + 1 ≠ d := by decide
  have hadd : ∀ d : Fin 4, d + 1 + 1 = d + 2 := by decide
  obtain ⟨q, t, hq, ht⟩ := h.owned.owner_of_used (h.used s.victim)
  obtain ⟨i, hi⟩ := h.owned.exists_not_flagged (Frames.not_memory_of_unset hp)
  have hvictim := Frames.victim_not_flagged hi
  obtain ⟨r, hr⟩ := h.owned.flagged _ (honly _ (hsucc s.victim))
  have hother : s.hardware p ≠ ⟨16 * (s.victim + 1 : Fin 4).val, .memory⟩ := by
    intro hself
    cases (congrArg Hp.inmem hself).symm.trans hp
  apply Yields.congr (freespace_table hcount (h.owned.ownFlagged p) hvictim honly hq ht hother)
  rw [(h.owned.table r _ hr).2]
  refine (swapOutAt_yields hdisk hcalls hq ht).bind fun _ u ⟨hu, _⟩ hdisk hcalls => ?_
  have hr' : u.TableAt r (s.victim + 1) := by
    rw [hu]
    exact hr
  unfold Yields
  rw [wp_bind]
  apply wp_mono (removePageTable_spec hr')
  · intro _ v hpost
    obtain ⟨hbound, rfl⟩ := hpost
    refine Yields.of_run robin_ok ?_ ((swapTable_disk hdisk hbound).congr rfl rfl rfl)
      (hcalls.congr rfl)
    have hroomy := h.roomy_table hp honly hr u.linecount
    have hturn : u.roundrobin + 1 = s.victim + 2 := by
      rw [hu]
      exact hadd s.victim
    rw [← hu, ← hturn] at hroomy
    exact hroomy
  · intro _ v hv
    exact ⟨hv.1 ▸ Fault.real_overflow, hcalls.congr (congrArg calls hv.2)⟩

/-- With two pages in memory both leave. -/
theorem freespace_pages (hdisk : s.DiskOk) (hcalls : s.CallsOk) (h : s.Full)
    (hp : (s.hardware p).inmem = .unset) {j : Fin 4} (hflag : s.ispagetable j = false)
    (hj : j ≠ s.victim) : Yields (freespace 2 p.val) s fun _ u => u.Roomy p := by
  have hcount : s.freeCount + 2 = 2 := by rw [Frames.freeCount_eq_zero h.used]
  obtain ⟨q, t, hq, ht⟩ := h.owned.owner_of_used (h.used s.victim)
  obtain ⟨r, t', hr, ht'⟩ := h.owned.owner_of_used (h.used (s.nextPage (s.victim + 1)))
  have hne := s.toFrames.nextPage_succ hflag hj
  apply Yields.congr (freespace_two hcount (h.owned.ownFlagged p) rfl hflag hj hq ht)
  refine (swapOutAt_yields hdisk hcalls hq ht).bind fun _ u ⟨hu, _⟩ hdisk hcalls => ?_
  have hpages : u.pages (s.nextPage (s.victim + 1)) = r.val := by
    rw [hu]
    exact (Function.update_of_ne hne _ _).trans hr
  have htable : u.TableAt r t' := by
    rw [hu]
    exact ht'
  refine (swapOutAt_yields hdisk hcalls hpages htable).mono fun _ v ⟨hv, _⟩ => ?_
  rw [hv, hu]
  exact h.roomy_two hp hflag hj

/-- `freespace(2, pid)` for a process that never had a page table, once another one has. -/
theorem freespace_roomy (hdisk : s.DiskOk) (hcalls : s.CallsOk) (hkept : s.Kept)
    (hstart : s.toFrames ≠ Frames.start) (hp : (s.hardware p).inmem = .unset) :
    Yields (freespace 2 p.val) s fun _ u => u.Roomy p := by
  cases hkept with
  | fresh h => exact absurd h hstart
  | starting q k hk h =>
    have hpq : p ≠ q := by
      intro heq
      subst heq
      rw [h] at hp
      cases (Frames.starting_tableAt p k.val).inmem.symm.trans hp
    apply freespace_starting hdisk hcalls hpq
    rcases hk with rfl | rfl
    · exact .inl h
    · exact .inr h
  | full h =>
    by_cases honly : ∀ i, i ≠ s.victim → s.ispagetable i = true
    · exact freespace_only hdisk hcalls h hp honly
    · simp only [not_forall, Bool.not_eq_true] at honly
      obtain ⟨j, hj, hflag⟩ := honly
      exact freespace_pages hdisk hcalls h hp hflag hj

theorem loadTable_disk {n : Nat} (h : s.DiskOk) : (s.loadTable p i n).DiskOk :=
  h.giveTable rfl rfl rfl

theorem loadTable_tableByte {n o : Nat} (ho : o < 16) :
    (s.loadTable p i n).tableByte p o = (s.line n).byte o := by
  have hp : (s.loadTable p i n).TableAt p i := Frames.giveTable_tableAt
  have hin : 16 * i.val ≤ 16 * i.val + o ∧ 16 * i.val + o < 16 * i.val + 16 := by omega
  have hsub : 16 * i.val + o - 16 * i.val = o := by omega
  rw [tableByte_memory hp]
  show (s.popped.writePage i (s.line n)).byte (16 * i.val + o) = _
  rw [byte_writePage, if_pos hin, hsub]

/-- The table of `p` is back, with the entries it had in the file. -/
structure Fetched (s u : Machine) (p : Fin 4) : Prop where
  frames : u.toFrames = s.toFrames.fetchTable p
  bytes : ∀ o < 16, u.tableByte p o = s.tableByte p o

/-- `freespace(1,pid); loadPageTable(pid);` -/
theorem fetchTable_yields (hdisk : s.DiskOk) (hcalls : s.CallsOk) (hfull : s.Full)
    (hp : (s.hardware p).inmem = .file) :
    Yields (do freespace 1 p.val; loadPageTable p.val : M Int) s
      fun r u => r = 16 * s.victim.val ∧ Fetched s u p := by
  obtain ⟨n, hn, hline⟩ := hdisk.line p hp
  refine (freespace_yields hdisk hcalls hfull.ready hfull.used p).bind ?_
  intro _ u hpost hdisk' hcalls'
  obtain ⟨hu, hgrows⟩ := hpost
  have hline' : u.hardware p = ⟨n, .file⟩ := by
    rw [hu]
    exact hline
  have hfree : frameList.find? u.freelist = some s.victim := by
    rw [hu]
    exact Frames.find?_evict hfull.used
  refine .of_run (loadPageTable_ok hline' (lt_of_lt_of_le hn hgrows.count) hgrows.ok hfree)
    ⟨rfl, ?_, ?_⟩ (loadTable_disk hdisk') (hcalls'.append (c := .findfree _) ⟨s.victim, rfl⟩ rfl)
  · show u.toFrames.giveTable s.victim p = _
    rw [hu]
    rfl
  · intro o ho
    rw [loadTable_tableByte ho, hgrows.lines n hn, tableByte_file hline]

/-- What `map` has before it looks at the entry of the page. -/
inductive Mapped (s u : Machine) (p : Fin 4) : Prop
  | there (t : Fin 4) (h : s.TableAt p t) (hu : u = s)
  | fetched (h : (s.hardware p).inmem = .file) (hu : Fetched s u p)
  | first (h : s.toFrames = Frames.start) (hu : u.toFrames = Frames.starting p 1)
      (hval : ∀ vaddr < 64, u.valpres p vaddr = 0)
  | created (f : Frames) (i : Fin 4) (h : (s.hardware p).inmem = .unset) (hf : f.Roomy p)
      (hi : frameList.find? f.freelist = some i) (hu : u.toFrames = f.giveTable i p)
      (hval : ∀ vaddr < 64, u.valpres p vaddr = 0)

/-- The table is in memory before the entry is looked at. -/
theorem Mapped.ready (h : Mapped s u p) (hstage : s.Stage) : u.Ready ∧ ∃ t, u.TableAt p t := by
  cases h with
  | there t ht hu =>
    rw [hu]
    exact ⟨hstage.ready, t, ht⟩
  | fetched hin hu =>
    rw [hu.frames]
    exact ⟨((hstage.full hin).fetch hin).1.ready, s.victim, Frames.giveTable_tableAt⟩
  | first hstart hu hval =>
    rw [hu]
    exact ⟨Frames.starting_ready p (by decide), 0, Frames.starting_tableAt p 1⟩
  | created f i hin hf hi hu hval =>
    rw [hu]
    exact ⟨hf.ready hi, i, Frames.giveTable_tableAt⟩

theorem mapTable_yields (hdisk : s.DiskOk) (hcalls : s.CallsOk) (hstage : s.Stage) :
    Yields (mapTable p.val vaddr) s fun _ u => Mapped s u p := by
  cases hin : (s.hardware p).inmem with
  | memory =>
    obtain ⟨t, ht⟩ := hstage.resident hin
    have hpte : 0 ≤ 16 * (t.val : Int) + 4 * (vaddr / 16 : Nat) := by omega
    refine .step (findpte_memory ht vaddr) ?_
    rw [if_neg (by omega)]
    refine .step (findpte_memory ht vaddr) ?_
    rw [if_neg (by omega)]
    exact .of_run (pure_run _) (.there t ht rfl) hdisk hcalls
  | file =>
    refine .step (findpte_file hin vaddr) ?_
    rw [if_neg (by decide)]
    refine .step (findpte_file hin vaddr) ?_
    rw [if_pos rfl, ← bind_assoc]
    refine (fetchTable_yields hdisk hcalls (hstage.full hin) hin).bind ?_
    intro _ u hpost hdisk' hcalls'
    obtain ⟨rfl, hu⟩ := hpost
    -- the two assignments repeat what `loadPageTable` has done
    have htable : u.ispagetable s.victim = true ∧ u.pages s.victim = p.val := by
      rw [hu.frames]
      exact ((hstage.full hin).fetch hin).1.owned.table p s.victim Frames.giveTable_tableAt
    have hpages : (setPages (16 * (s.victim.val : Int)) p.val).run u = .ok () u := by
      rw [setPages_ok, Function.update_eq_self_iff.mpr htable.2.symm]
      rfl
    have hflag : (setIspagetable (16 * (s.victim.val : Int)) true).run u = .ok () u := by
      rw [setIspagetable_ok, Function.update_eq_self_iff.mpr htable.1.symm]
      rfl
    exact .step hpages (.step hflag (.of_run (say_ok _) (.fetched hin ⟨hu.frames, hu.bytes⟩)
      (hdisk'.congr rfl rfl rfl) (hcalls'.congr rfl)))
  | unset =>
    refine .step (findpte_unset hin vaddr) ?_
    rw [if_pos rfl]
    by_cases hstart : s.toFrames = Frames.start
    · have hcount : 2 ≤ s.freeCount := by
        rw [hstart]
        decide
      have hfree : frameList.find?
          (s.withFrames (s.toFrames.turnTo (s.roundrobin + 1))).freelist = some 0 := by
        rw [withFrames_toFrames, hstart]
        rfl
      refine .step (freespace_none hcount) (.of_run (newTable_ok hfree) ?_ ?_ ?_)
      · refine .first hstart ?_ fun _ => newTable_valpres
        rw [newTable_toFrames, withFrames_toFrames, hstart]
        exact Frames.start_giveTable p
      · exact newTable_disk (hdisk.congr rfl rfl rfl)
      · exact hcalls.append (c := .findfree _) ⟨0, rfl⟩ (newTable_calls)
    · have hkept := hstage.kept (Frames.not_memory_of_unset hin)
      refine (freespace_roomy hdisk hcalls hkept hstart hin).bind fun _ u hu hdisk' hcalls' => ?_
      obtain ⟨i, hi, -⟩ := hu.full
      refine .of_run (newTable_ok hi) ?_ (newTable_disk hdisk')
        (hcalls'.append (c := .findfree _) ⟨i, rfl⟩ newTable_calls)
      exact .created u.toFrames i hin hu hi (newTable_toFrames u p i) fun _ => newTable_valpres

end Tables

end Cs3013.Memory
