import Cs3013.Memory.Walk

/-!
# What the swap file holds at any time

Every call of a function of `memory.c` either leaves the swap file alone or appends lines with the
bytes it finds in `mem`. So the file lists the bytes of all calls of `pageToFile`, in their order
and numbered from 0, and `pageFromFile` gets each line back, also between two calls of one command.
-/
namespace Cs3013.Memory

open Cs3013.Library.Faulting Cs3013.Library.Transition

/-- The file holds the pages that have been written. -/
def Machine.Logged (s : Machine) : Prop :=
  ∃ records, FileHolds s records ∧ s.written = records.map Vector.toList

/-- From a file that lists what has been written to another one, with perhaps more lines. -/
def Appends (s t : Machine) : Prop := s.Logged → t.Logged ∧ s.written <+: t.written

instance : IsPreorder Machine Appends where
  refl _ hs := ⟨hs, List.prefix_rfl⟩
  trans _ _ _ hst htu hs :=
    have ht := hst hs
    have hu := htu ht.1
    ⟨hu.1, ht.2.trans hu.2⟩

section Primitives

variable {s t : Machine}

theorem appends_of_file (h : t.file = s.file) : Appends s t := by
  intro hs
  obtain ⟨records, hrec, hwritten⟩ := hs
  have hcount : t.linecount = s.linecount := congrArg (·.1) h
  have htext : t.swapspace = s.swapspace := congrArg (·.2.1) h
  have hlog : t.written = s.written := congrArg (·.2.2) h
  exact ⟨⟨records, hrec.congr htext hcount, hlog.trans hwritten⟩, hlog ▸ List.prefix_rfl⟩

theorem peek_spec (i : Int) :
    wp (peek i) (fun b t => t = s ∧ b = s.byte i.toNat) (fun _ _ => True) s := by
  unfold wp EStateM.run peek
  split_ifs
  · exact ⟨rfl, rfl⟩
  · trivial

/-- The reading loop of `pageToFile`. -/
theorem peeks_spec (base : Int) (l : List Nat) :
    wp (l.mapM fun (i : Nat) => peek (base + i) : M (List UInt8))
      (fun bytes t => t = s ∧ bytes = l.map fun (i : Nat) => s.byte (base + i).toNat)
      (fun _ _ => True) s := by
  induction l with
  | nil => exact ⟨rfl, rfl⟩
  | cons i l ih =>
    rw [List.mapM_cons]
    refine wp_seq (peek_spec (base + i)) fun b t ht => ?_
    obtain ⟨rfl, rfl⟩ := ht
    refine wp_seq ih fun bytes t ht => ?_
    obtain ⟨rfl, rfl⟩ := ht
    exact ⟨rfl, rfl⟩

/-- A call of `pageToFile` adds one line, with the bytes it finds. -/
theorem appendPage_written (base : Int) :
    wp (appendPage base) (fun k t => k = s.linecount ∧ t.linecount = s.linecount + 1 ∧
      k + 1 < 2 ^ 31 ∧ ∃ bytes : Page,
        bytes.toList = (List.range 16).map (fun (i : Nat) => s.byte (base + i).toNat) ∧
        t.swapspace = s.swapspace ++ lineText k bytes.toList ∧
        t.written = s.written ++ [bytes.toList]) (fun _ _ => True) s := by
  unfold appendPage
  by_cases hbound : s.linecount + 1 < 2 ^ 31
  · have hnext : nextLine.run s = .ok s.linecount { s with linecount := s.linecount + 1 } :=
      if_pos hbound
    apply wp_step hnext
    rw [pageToFile]
    refine wp_seq (peeks_spec base (List.range 16)) fun bytes t ht => ?_
    obtain ⟨rfl, rfl⟩ := ht
    exact ⟨rfl, rfl, hbound, ⟨_, by simp⟩, rfl, rfl, rfl⟩
  · have hnext : nextLine.run s = .error .overflow s := if_neg hbound
    unfold wp
    rw [bind_run, hnext]
    trivial

theorem appendPage_appends (base : Int) : Evolves Appends (appendPage base) := by
  intro s
  apply wp_imp (appendPage_written base)
  intro k t ht hs
  obtain ⟨rfl, hcount, hbound, page, -, htext, hwritten⟩ := ht
  obtain ⟨records, hrec, hlog⟩ := hs
  refine ⟨⟨records ++ [page], hrec.append page hbound hcount htext, ?_⟩, ?_⟩
  · rw [hwritten, hlog, List.map_append, List.map_singleton]
  · rw [hwritten]
    exact List.prefix_append _ _

/-- Every routine of any process leads from one such file to the next. -/
theorem appends_allowed : Allowed Appends fun _ => True := by
  have hframed : Framed Appends := ⟨fun _ _ hfile _ => appends_of_file hfile, appendPage_appends⟩
  have hassign : ∀ pid hp, Evolves Appends (setHardware pid hp) := fun pid _ =>
    (hframed.of_preserves (hardwareIndex_preserves pid)).bind fun _ =>
      .modify fun _ => appends_of_file rfl
  exact ⟨hframed, fun pid hp _ => hassign pid hp, fun pid =>
    hframed.evolves_removePageTable pid (hassign pid)⟩

end Primitives

/-! ## The file at any moment -/

/-- What a command is made of: the functions of `memory.c` that may change the machine, with any
arguments, and the assignments between their calls. -/
inductive Part where
  | exec (c : Cmd)
  | freespace (n : Nat) (pid : Int)
  | loadPageTable (pid : Int)
  | loadPage (pid : Int) (vaddr : Nat)
  | removePageTable (pid : Int)
  | removePage (pid paddr : Int)
  | pageToFile (base : Int)
  | pageFromFile (buffer : Page) (linenum : Int)
  | findfree
  | robin
  | uninitialised
  | poke (i : Int) (v : UInt8)
  | setHardware (pid : Int) (hp : Hp)
  | setPages (address pid : Int)
  | setFreelist (address : Int) (free : Bool)
  | setIspagetable (address : Int) (table : Bool)
  | say (m : Message)
  | note (c : Call)

def Part.run : Part → M Unit
  | .exec c => do let _ ← Memory.exec c
  | .freespace n pid => Memory.freespace n pid
  | .loadPageTable pid => do let _ ← Memory.loadPageTable pid
  | .loadPage pid vaddr => do let _ ← Memory.loadPage pid vaddr
  | .removePageTable pid => Memory.removePageTable pid
  | .removePage pid paddr => Memory.removePage pid paddr
  | .pageToFile base => do let _ ← appendPage base
  | .pageFromFile buffer linenum => do let _ ← Memory.pageFromFile buffer linenum
  | .findfree => do let _ ← Memory.findfree
  | .robin => Memory.robin
  | .uninitialised => do let _ ← Memory.uninitialised
  | .poke i v => Memory.poke i v
  | .setHardware pid hp => Memory.setHardware pid hp
  | .setPages address pid => Memory.setPages address pid
  | .setFreelist address free => Memory.setFreelist address free
  | .setIspagetable address table => Memory.setIspagetable address table
  | .say m => Memory.say m
  | .note c => Memory.note c

/-- The machine part by part. -/
def parts : System Machine Part where
  init s := ∃ stack, s = startup stack
  step s c t := c.run.run s = .ok () t

/-- The part assigns no entry of `hardware`, or one of a process in `own`. -/
def Part.Within (own : Int → Prop) : Part → Prop
  | .exec c => own c.pid.val
  | .loadPageTable pid => own pid
  | .setHardware pid _ => own pid
  | _ => True

theorem Allowed.evolves_part {R : Machine → Machine → Prop} [IsPreorder Machine R]
    {own : Int → Prop} (h : Allowed R own) (c : Part) (hc : c.Within own) : Evolves R c.run := by
  cases c with
  | exec c => exact (h.evolves_exec c hc).bind fun _ => .pure _
  | freespace n pid => exact h.evolves_freespace n pid
  | loadPageTable pid => exact (h.evolves_loadPageTable pid hc).bind fun _ => .pure _
  | loadPage pid vaddr => exact (h.evolves_loadPage pid vaddr).bind fun _ => .pure _
  | removePageTable pid => exact h.table pid
  | removePage pid paddr => exact h.evolves_removePage pid paddr
  | pageToFile base => exact (h.append base).seq (.pure _)
  | pageFromFile buffer linenum => exact (h.evolves_pageFromFile buffer linenum).seq (.pure _)
  | findfree => exact h.evolves_findfree.seq (.pure _)
  | robin => exact h.evolves_robin
  | uninitialised => exact h.evolves_uninitialised.bind fun _ => .pure _
  | poke i v => exact h.evolves_poke i v
  | setHardware pid hp => exact h.assign pid hp hc
  | setPages address pid => exact h.evolves_setPages pid address
  | setFreelist address free => exact h.evolves_setFreelist address free
  | setIspagetable address table => exact h.evolves_setIspagetable address table
  | say m => exact h.evolves_say m
  | note c => exact h.evolves_note c

/-- What every part within `own` respects, whole sequences of such parts respect. -/
theorem Allowed.evolves_parts {R : Machine → Machine → Prop} [IsPreorder Machine R]
    {own : Int → Prop} (h : Allowed R own) {s t : Machine} {l : List Part}
    (hsteps : parts.Steps (fun _ c => c.Within own) s l t) : R s t :=
  hsteps.invariant (I := fun _ => R s) (refl_of R s) fun _ _ c _ ht hc hstep =>
    trans_of R ht ((h.evolves_part c hc).rel hstep)

theorem startup_logged (stack : List Page) : (startup stack).Logged :=
  ⟨[], ⟨rfl, rfl, Nat.two_pow_pos 31⟩, rfl⟩

section Moments

variable {s t : Machine} {h : List Event} {l : List Part}

theorem run_logged (hrun : memsim.Run h s) : s.Logged := by
  refine hrun.stateInvariant ?_ ?_
  · rintro _ ⟨stack, rfl⟩
    exact startup_logged stack
  · intro t e u ht _ hstep
    exact ((appends_allowed.evolves_exec e.cmd trivial).rel hstep.1 ht).1

theorem parts_appends (hsteps : parts.Steps (fun _ _ => True) s l t) : Appends s t := by
  apply appends_allowed.evolves_parts
  refine hsteps.mono fun _ c _ => ?_
  cases c <;> trivial

theorem swapText_eq (k : Nat) (records : List Page) :
    swapText k records =
      ((records.map Vector.toList).mapIdx fun i bytes => lineText (k + i) bytes).flatten := by
  induction records generalizing k with
  | nil => rfl
  | cons page records ih =>
    have hnext : ∀ i, k + 1 + i = k + (i + 1) := fun i => by omega
    simp only [swapText, ih, hnext, List.map_cons, List.mapIdx_cons, List.flatten_cons,
      Nat.add_zero]

/-- Line `k` is read back whole. -/
theorem FileHolds.read {records : List Page} (h : FileHolds s records) {k : Nat}
    (hk : k < records.length) (buffer : Page) :
    (pageFromFile buffer (k : Int)).run s = .ok (1, records[k]) s := by
  have hlt : k < s.linecount := h.count ▸ hk
  rw [pageFromFile_ok ⟨records, h⟩ buffer hlt, h.line_eq hk]

/-- At every moment of a run the file consists of one line for each call of `pageToFile` so far,
in their order, and from then on each line is read back as the bytes that its call has found. -/
theorem swap_file_round_trip {u : Machine} {l' : List Part} (hrun : memsim.Run h s)
    (hpart : parts.Steps (fun _ _ => True) s l t) (hlater : parts.Steps (fun _ _ => True) t l' u) :
    (∀ base k v, (appendPage base).run t = .ok k v → k = t.linecount ∧
      v.written = t.written ++ [(List.range 16).map fun (i : Nat) => t.byte (base + i).toNat]) ∧
    t.written <+: u.written ∧ u.written.length = u.linecount ∧
    u.swapspace = (u.written.mapIdx lineText).flatten ∧
    ∀ k (hk : k < u.written.length) (buffer : Page), ∃ page : Page,
      (pageFromFile buffer (k : Int)).run u = .ok (1, page) u ∧ page.toList = u.written[k] := by
  have ht := (parts_appends hpart (run_logged hrun)).1
  obtain ⟨⟨records, hrec, hwritten⟩, hprefix⟩ := parts_appends hlater ht
  refine ⟨fun base k v hcall => ?_, hprefix, ?_, ?_, fun k hk buffer => ?_⟩
  · obtain ⟨rfl, -, -, page, hpage, -, hnew⟩ := wp_ok (appendPage_written base) hcall
    exact ⟨rfl, hpage ▸ hnew⟩
  · rw [hwritten, List.length_map, hrec.count]
  · rw [hrec.text, swapText_eq, hwritten]
    simp only [Nat.zero_add]
  · have hlt : k < records.length := by rwa [hwritten, List.length_map] at hk
    refine ⟨records[k], hrec.read hlt buffer, ?_⟩
    simp only [hwritten, List.getElem_map]

end Moments

/-- The page with the 200 is swapped out when the fourth one is mapped. -/
def storedPage : List Cmd := [.map 0 0 1, .map 0 16 1, .store 0 17 200, .map 0 32 1, .map 0 48 1]

theorem storedPage_file : ∃ h s, memsim.RunIf (fun _ _ => True) h s ∧
    h.map Event.cmd = storedPage.reverse ∧ s.written = [[0, 200] ++ List.replicate 14 0] :=
  exists_run (fun _ _ => True) [] (by decide +kernel)

theorem swap_file_round_trip_stored : ∃ h s, memsim.Run h s ∧
    h.map Event.cmd = storedPage.reverse ∧ ∃ page : Page,
      (pageFromFile zeroPage 0).run s = .ok (1, page) s ∧
        page.toList = [0, 200] ++ List.replicate 14 0 := by
  obtain ⟨h, s, hrun, hcmds, hwritten⟩ := storedPage_file
  obtain ⟨-, -, -, -, hread⟩ := swap_file_round_trip hrun .refl .refl
  obtain ⟨page, hpage, hbytes⟩ := hread 0 (by rw [hwritten]; decide) zeroPage
  refine ⟨h, s, hrun, hcmds, page, hpage, ?_⟩
  rw [hbytes]
  simp only [hwritten]
  rfl

end Cs3013.Memory
