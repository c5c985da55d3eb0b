import Cs3013.Memory.SwapLog

/-!
# A page table on its way through the file

While the page table of a process is in the file, nothing that is done for other processes assigns
its entry of `hardware`: only a second `removePageTable` could, and this one reads `mem[-1]`. The
line in the entry stays the one that was written, so the next `loadPageTable` gets the same bytes
back.
-/
namespace Cs3013.Memory

open Cs3013.Library.Faulting Cs3013.Library.Transition Machine

/-- Nothing changes the entry of `hardware` for `p` once it names line `n` of the file. -/
def Away (p : Fin 4) (n : Nat) (s t : Machine) : Prop :=
  s.hardware p = ⟨n, .file⟩ → t.hardware p = ⟨n, .file⟩

instance (p : Fin 4) (n : Nat) : IsPreorder Machine (Away p n) where
  refl _ h := h
  trans _ _ _ hst htu h := htu (hst h)

section Frame

variable {s : Machine} {p : Fin 4} {n : Nat}

/-- The first byte that `pageToFile` reads lies in front of `mem`. -/
theorem appendPage_negative {base : Int} (h : base < 0) :
    wp (appendPage base) (fun _ _ => False) (fun _ _ => True) s := by
  have hread : ∀ t : Machine, (peek (base + (0 : Nat))).run t =
      .error (.mem (base + (0 : Nat))) t := fun t => if_neg (by omega)
  have hpage : ∀ (line : Nat) (t : Machine),
      wp (pageToFile line base) (fun _ _ => False) (fun _ _ => True) t := by
    intro line t
    unfold wp
    rw [pageToFile, List.range_succ_eq_map, List.mapM_cons, bind_assoc, bind_run, hread]
    trivial
  refine wp_seq (Q := fun _ _ => True) ?_ fun line t _ => hpage line t
  unfold wp EStateM.run nextLine
  split_ifs <;> trivial

/-- Of the hardware table, a line of the file changes nothing. -/
theorem appendPage_hardware (base : Int) :
    wp (appendPage base) (fun _ t => t.hardware = s.hardware) (fun _ _ => True) s := by
  have hnext : wp nextLine (fun _ t => t.hardware = s.hardware) (fun _ _ => True) s := by
    unfold wp EStateM.run nextLine
    split_ifs
    · rfl
    · trivial
  refine wp_seq hnext fun line t ht => wp_seq (peeks_spec base (List.range 16)) fun bytes u hu => ?_
  rw [hu.1]
  exact ht

/-- An assignment to another entry. -/
theorem setHardware_other {pid : Int} (hne : pid ≠ p.val) (hp : Hp) :
    wp (setHardware pid hp) (fun _ t => t.hardware p = s.hardware p) (fun _ _ => True) s := by
  by_cases hrange : 0 ≤ pid ∧ pid < 4
  · obtain ⟨q, rfl⟩ : ∃ q : Fin 4, pid = q.val := ⟨⟨pid.toNat, by omega⟩, by simp; omega⟩
    rw [wp_of_ok (setHardware_ok q hp)]
    apply Function.update_of_ne
    intro heq
    exact hne (by rw [heq])
  · have hfault : (hardwareIndex pid).run s = .error (.hardware pid) s := dif_neg hrange
    unfold wp
    rw [setHardware, bind_run, hfault]
    trivial

/-- Whatever is done for other processes leaves the entry of `p` alone. -/
theorem away_allowed (p : Fin 4) (n : Nat) : Allowed (Away p n) fun pid => pid ≠ p.val := by
  have hframed : Framed (Away p n) := by
    constructor
    · intro s t _ hhardware h
      rw [hhardware]
      exact h
    · intro base s
      apply wp_imp (appendPage_hardware base)
      intro _ t ht h
      rw [ht]
      exact h
  have hassign : ∀ pid hp, pid ≠ (p.val : Int) → Evolves (Away p n) (setHardware pid hp) := by
    intro pid hp hne s
    apply wp_imp (setHardware_other hne hp)
    intro _ t ht h
    rw [ht]
    exact h
  refine ⟨hframed, hassign, fun pid => ?_⟩
  by_cases hne : pid = (p.val : Int)
  · -- the process itself: its table is not in memory
    subst hne
    intro s
    by_cases haway : s.hardware p = ⟨n, .file⟩
    · have hfile : (s.hardware p).inmem = .file := by rw [haway]
      apply wp_step (findpte_file hfile 0)
      exact wp_seq (appendPage_negative (by decide)) fun _ _ h => h.elim
    · exact wp_of_forall fun _ t h => absurd h haway
  · exact hframed.evolves_removePageTable pid fun hp => hassign pid hp hne

end Frame

/-! ## The way out -/

/-- The entries of `hardware` are the same, and what has been written is still there. -/
def Saves (s t : Machine) : Prop := t.hardware = s.hardware ∧ s.written <+: t.written

instance : IsPreorder Machine Saves where
  refl _ := ⟨rfl, List.prefix_rfl⟩
  trans _ _ _ hst htu := ⟨htu.1.trans hst.1, hst.2.trans htu.2⟩

theorem saves_framed : Framed Saves := by
  constructor
  · intro s t hfile hhardware
    have hwritten : t.written = s.written := congrArg (·.2.2) hfile
    exact ⟨hhardware, hwritten ▸ List.prefix_rfl⟩
  · intro base s
    apply wp_forget (wp_and (appendPage_hardware base) (appendPage_written base))
    intro k t ht
    obtain ⟨hhardware, -, -, -, page, -, -, hwritten⟩ := ht
    exact ⟨hhardware, hwritten ▸ List.prefix_append _ _⟩

section Trip

variable {s t t' u : Machine} {p : Fin 4}

/-- The sixteen bytes of `mem` from an address on. -/
def Machine.bytesAt (s : Machine) (address : Int) : List UInt8 :=
  (List.range 16).map fun (i : Nat) => s.byte (address + i).toNat

/-- `removePageTable` returns only for a table in memory, whose bytes it writes to the next line. -/
theorem removePageTable_saves : wp (removePageTable p.val)
    (fun _ u => (s.hardware p).inmem = .memory ∧ u.hardware p = ⟨s.linecount, .file⟩ ∧
      s.written ++ [s.bytesAt (s.hardware p).address] <+: u.written) (fun _ _ => True) s := by
  cases hin : (s.hardware p).inmem with
  | memory =>
    have hfind : (findpte p.val 0).run s = .ok (s.hardware p).address s := by
      rw [findpte, bind_of_ok (hardwareOf_ok p), hin]
      exact congrArg (EStateM.Result.ok · s) (add_zero _)
    apply wp_step hfind
    refine wp_seq (appendPage_written _) fun line v hv => ?_
    obtain ⟨rfl, -, -, page, hpage, -, hwritten⟩ := hv
    apply wp_step (setHardware_ok p _)
    -- the rest of the routine frees the frame and leaves the file and the entry alone
    have hrest : Evolves Saves (do
        setFreelist (s.hardware p).address true
        setIspagetable (s.hardware p).address false
        forM (List.range 16) fun (i : Nat) => poke ((s.hardware p).address + i) 0
        setPages (s.hardware p).address (-1)
        say (.tableSwapped p.val)) := by
      refine (saves_framed.evolves_setFreelist _ true).bind fun _ => ?_
      refine (saves_framed.evolves_setIspagetable _ false).bind fun _ => ?_
      refine (saves_framed.evolves_clear _).bind fun _ => ?_
      exact (saves_framed.evolves_setPages (-1) _).bind fun _ => saves_framed.evolves_say _
    refine wp_imp (hrest _) fun _ u hu => ⟨rfl, ?_, ?_⟩
    · rw [hu.1]
      exact Function.update_self _ _ _
    · have hsame : page.toList = s.bytesAt (s.hardware p).address := hpage
      rw [← hsame, ← hwritten]
      exact hu.2
  | file =>
    apply wp_step (findpte_file hin 0)
    exact wp_seq (appendPage_negative (by decide)) fun _ _ h => h.elim
  | unset =>
    apply wp_step (findpte_unset hin 0)
    exact wp_seq (appendPage_negative (by decide)) fun _ _ h => h.elim

/-- Without a free frame `loadPageTable` writes to `mem[-1]`. -/
theorem loadPageTable_full (hfree : frameList.find? s.freelist = none) :
    wp (loadPageTable p.val) (fun _ _ => False) (fun _ _ => True) s := by
  have hwrite : ∀ (temp : Page) (t : Machine),
      wp (swaptomem temp (-1)) (fun _ _ => False) (fun _ _ => True) t := by
    intro temp t
    have hpoke : (poke (-1 + (0 : Nat)) (temp.byte 0)).run t = .error (.mem (-1)) t := rfl
    unfold wp
    rw [swaptomem, List.range_succ_eq_map, List.forM_cons, bind_run, hpoke]
    trivial
  apply wp_step (hardwareOf_ok p)
  apply wp_step (findfree_none hfree)
  apply wp_step (note_ok _)
  apply wp_step uninitialised_ok
  refine wp_seq (Q := fun _ _ => True) (wp_of_forall fun _ _ => trivial) fun result t _ => ?_
  exact wp_seq (hwrite result.2 t) fun _ _ h => h.elim

theorem loadTable_page (i : Fin 4) (n : Nat) : (s.loadTable p i n).page i = s.line n := by
  apply Page.ext_byte
  intro o ho
  show ((s.popped.writePage i (s.line n)).page i).byte o = _
  rw [byte_page _ _ ho, byte_writePage, if_pos (by omega), Nat.add_sub_cancel_left]

/-- The table that lies on the line comes into the first free frame. -/
theorem loadPageTable_returns {n : Nat} {bytes : List UInt8} (hlog : u.Logged)
    (haway : u.hardware p = ⟨n, .file⟩) (hline : u.written[n]? = some bytes) :
    wp (loadPageTable p.val)
      (fun r v => ∃ i : Fin 4, u.freelist i = true ∧ r = 16 * i.val ∧
        v.hardware p = ⟨16 * i.val, .memory⟩ ∧ (v.page i).toList = bytes)
      (fun _ _ => ∀ i, u.freelist i = false) u := by
  obtain ⟨records, hrec, hwritten⟩ := hlog
  have hlt : n < records.length := by
    obtain ⟨hn, -⟩ := List.getElem?_eq_some_iff.mp hline
    rwa [hwritten, List.length_map] at hn
  have hbytes : (u.line n).toList = bytes := by
    rw [hwritten, List.getElem?_map, List.getElem?_eq_getElem hlt] at hline
    rw [hrec.line_eq hlt]
    exact Option.some_inj.mp hline
  cases hfree : frameList.find? u.freelist with
  | some i =>
    rw [wp_of_ok (loadPageTable_ok haway (hrec.count ▸ hlt) ⟨records, hrec⟩ hfree)]
    refine ⟨i, List.find?_some hfree, rfl, Function.update_self _ _ _, ?_⟩
    rw [loadTable_page, hbytes]
  | none =>
    have hall : ∀ i, i ∈ frameList := by decide
    apply wp_mono (loadPageTable_full hfree)
    · intro _ _ h
      exact h.elim
    · intro _ _ _ i
      exact Bool.eq_false_iff.mpr (List.find?_eq_none.mp hfree i (hall i))

end Trip

/-! ## The round trip -/

section Runs

variable {s t t' u : Machine} {h : List Event} {l l' : List Part} {p : Fin 4}

/-- Wherever in a run the page table of `p` goes to the file, and whatever is done for other
processes then, `hardware` keeps its line, and the next `loadPageTable` brings the same sixteen
bytes into the frame it returns; it does return unless no frame is free. -/
theorem page_table_round_trip (hrun : memsim.Run h s)
    (hpart : parts.Steps (fun _ _ => True) s l t)
    (hremove : (removePageTable p.val).run t = .ok () t')
    (hlater : parts.Steps (fun _ c => c.Within fun pid => pid ≠ p.val) t' l' u) :
    (t.hardware p).inmem = .memory ∧ u.hardware p = ⟨t.linecount, .file⟩ ∧
    ((∃ i, u.freelist i = true) → ∃ r v, (loadPageTable p.val).run u = .ok r v) ∧
    ∀ r v, (loadPageTable p.val).run u = .ok r v → ∃ i : Fin 4, u.freelist i = true ∧
      r = 16 * i.val ∧ v.hardware p = ⟨16 * i.val, .memory⟩ ∧
      (v.page i).toList = t.bytesAt (t.hardware p).address := by
  obtain ⟨hin, haway, hsaved⟩ := wp_ok removePageTable_saves hremove
  have ht := (parts_appends hpart (run_logged hrun)).1
  have ht' := ((appends_allowed.table _).rel hremove ht).1
  have hall : parts.Steps (fun _ _ => True) t' l' u := hlater.mono fun _ _ _ => trivial
  obtain ⟨hu, hprefix⟩ := parts_appends hall ht'
  have haway' : u.hardware p = ⟨t.linecount, .file⟩ :=
    (away_allowed p t.linecount).evolves_parts hlater haway
  have hline : u.written[t.linecount]? = some (t.bytesAt (t.hardware p).address) := by
    obtain ⟨records, hrec, hwritten⟩ := ht
    have hcount : t.linecount = t.written.length := by
      rw [hwritten, List.length_map, hrec.count]
    obtain ⟨rest, hrest⟩ := hsaved.trans hprefix
    rw [← hrest, hcount]
    simp
  have hload := loadPageTable_returns hu haway' hline
  refine ⟨hin, haway', ?_, fun r v hrun => wp_ok hload hrun⟩
  intro hfree
  obtain ⟨i, hi⟩ := hfree
  unfold wp at hload
  cases hload' : (loadPageTable p.val).run u with
  | ok r v => exact ⟨r, v, rfl⟩
  | error e v =>
    rw [hload'] at hload
    cases (hload i).symm.trans hi

/-- A page and the page table of process 0 go to the file, and process 1 maps a page. -/
theorem threeProcesses_parts : ∃ h s, memsim.RunIf (fun _ _ => True) h s ∧
    h.map Event.cmd = [Cmd.map 0 0 1, .map 1 0 1, .map 2 0 1].reverse ∧
      wp (Part.run (.removePage 2 48)) (fun _ t => t.bytesAt (t.hardware 0).address =
          [0, 1, 1, 1, 1, 0, 0, 0, 2, 0, 0, 0, 3, 0, 0, 0] ∧
        wp (removePageTable 0) (fun _ t' =>
          wp (Part.run (.exec (.map 1 0 5))) (fun _ u => u.freelist 3 = true) (fun _ _ => False) t')
        (fun _ _ => False) t) (fun _ _ => False) s :=
  exists_run (fun _ _ => True) [] (by decide +kernel)

theorem page_table_round_trip_three : ∃ h s t u v, ∃ i : Fin 4, memsim.Run h s ∧
    h.map Event.cmd = [Cmd.map 0 0 1, .map 1 0 1, .map 2 0 1].reverse ∧
    parts.Steps (fun _ _ => True) s [.removePage 2 48] t ∧
    (loadPageTable 0).run u = .ok (16 * i.val) v ∧ v.hardware 0 = ⟨16 * i.val, .memory⟩ ∧
    (v.page i).toList = [0, 1, 1, 1, 1, 0, 0, 0, 2, 0, 0, 0, 3, 0, 0, 0] := by
  obtain ⟨h, s, hrun, hcmds, hparts⟩ := threeProcesses_parts
  obtain ⟨⟨⟩, t, hpage, hbytes, hremoved⟩ := ok_of_wp hparts
  obtain ⟨⟨⟩, t', hremove, hmapped⟩ := ok_of_wp hremoved
  obtain ⟨⟨⟩, u, hmap, hfree⟩ := ok_of_wp hmapped
  have hpart : parts.Steps (fun _ _ => True) s [.removePage 2 48] t := .tail .refl trivial hpage
  have hlater : parts.Steps (fun _ c => c.Within fun pid => pid ≠ (0 : Fin 4).val) t'
      [.exec (.map 1 0 5)] u := by
    have hother : ((1 : Fin 4).val : Int) ≠ (0 : Fin 4).val := by decide
    exact .tail .refl hother hmap
  obtain ⟨-, -, hreturns, htrip⟩ := page_table_round_trip hrun hpart hremove hlater
  obtain ⟨r, v, hload⟩ := hreturns ⟨3, hfree⟩
  obtain ⟨i, -, rfl, hhardware, hsame⟩ := htrip r v hload
  exact ⟨h, s, t, u, v, i, hrun, hcmds, hpart, hload, hhardware, hsame.trans hbytes⟩

end Runs

end Cs3013.Memory
