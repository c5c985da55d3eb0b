import Cs3013.Memory.SoundRuns

/-!
# What memsim prints about the swap file

Each call of `pageToFile` is followed by one message, with the number of lines there are by then,
and each page table that comes back by another one. The journal lists these messages; `Logs`
says what a part of a command adds to it, and `Enters` follows the code of a command along its
parts. A process whose page table is in memory adds one entry for a frame that it takes, when none
is free.
-/
namespace Cs3013.Memory

open Function Cs3013.Library.Faulting Cs3013.Library.Transition Machine

/-! ## The journal -/

/-- A frame has gone to the file. -/
def Message.isEviction : Message → Bool
  | .frameSwapped _ _ => true
  | .tableSwapped _ => true
  | _ => false

/-- A page table has gone to the file or come back. -/
def Message.movesTable : Message → Bool
  | .tableSwapped _ => true
  | .tableLoaded _ _ => true
  | _ => false

def Message.isLogged (m : Message) : Bool := m.isEviction || m.movesTable

def Machine.logged (s : Machine) : List Message := s.out.filter Message.isLogged

/-- The journal of a run, the first entry first. -/
def journal (h : List Event) : List Message :=
  h.reverse.flatMap fun e => e.out.filter Message.isLogged

def tableMoves (l : List Message) : List Message := l.filter Message.movesTable

/-- The lines behind a number of `n` lines, as the entries number them. -/
def Numbered (n : Nat) (l : List Message) : Prop :=
  ∀ front d line back, l = front ++ .frameSwapped d line :: back →
    line = n + front.countP Message.isEviction + 1

/-- From `s` to `u` the entries `l` are added, one for each new line. -/
structure Logs (s u : Machine) (l : List Message) : Prop where
  logged : u.logged = s.logged ++ l
  lines : u.linecount = s.linecount + l.countP Message.isEviction
  numbered : Numbered s.linecount l

def Machine.ledger (s : Machine) : Nat × List Message := (s.linecount, s.logged)

/-- The program adds no line and no entry. -/
abbrev Still {α : Type} (m : M α) : Prop := Preserves (fun _ => True) Machine.ledger m

abbrev Silent {α : Type} (m : M α) : Prop := Preserves (fun _ => True) Machine.logged m

/-- The program leaves the control data alone as well. -/
abbrev Idle {α : Type} (m : M α) : Prop :=
  Preserves Fault.Real (fun s : Machine => (s.control, s.logged)) m

/-- If the program returns, it has added entries as in `Q`. -/
def Enters {α : Type} (m : M α) (s : Machine) (Q : α → Machine → List Message → Prop) : Prop :=
  wp m (fun a u => ∃ l, Logs s u l ∧ Q a u l) (fun _ _ => True) s

section Lists

variable {n line d : Nat} {l l' : List Message} {m : Message} {s u v : Machine}

theorem numbered_nil : Numbered n [] := by
  intro front d line back h
  simp at h

theorem numbered_append (hl : Numbered n l)
    (hl' : Numbered (n + l.countP Message.isEviction) l') : Numbered n (l ++ l') := by
  intro front d line back h
  obtain ⟨middle, hfront, hrest⟩ | ⟨middle, hlist, hrest⟩ := List.append_eq_append_iff.mp h
  · have hline := hl' middle d line back hrest
    rw [hline, hfront, List.countP_append]
    omega
  · cases middle with
    | nil =>
      have hline := hl' [] d line back (by simpa using hrest.symm)
      simp only [List.append_nil] at hlist
      simpa [hlist] using hline
    | cons m middle =>
      obtain ⟨rfl, -⟩ := List.cons.inj hrest
      exact hl front d line middle hlist

theorem numbered_frame : Numbered n [.frameSwapped d (n + 1)] := by
  intro front d' line back h
  cases front with
  | nil =>
    simp only [List.nil_append, List.cons.injEq, Message.frameSwapped.injEq] at h
    simp [← h.1.2]
  | cons m front =>
    simp at h

theorem numbered_table (pid : Int) : Numbered n [.tableSwapped pid] := by
  intro front d line back h
  cases front with
  | nil => simp at h
  | cons m front => simp at h

theorem Logs.refl : Logs s s [] := ⟨(List.append_nil _).symm, rfl, numbered_nil⟩

theorem Logs.of_ledger (h : u.ledger = s.ledger) : Logs s u [] := by
  refine ⟨?_, congrArg Prod.fst h, numbered_nil⟩
  rw [List.append_nil]
  exact congrArg Prod.snd h

theorem Logs.trans (h : Logs s u l) (h' : Logs u v l') : Logs s v (l ++ l') where
  logged := by rw [h'.logged, h.logged, List.append_assoc]
  lines := by
    rw [h'.lines, h.lines, List.countP_append]
    omega
  numbered := by
    have hnumbered := h'.numbered
    rw [h.lines] at hnumbered
    exact numbered_append h.numbered hnumbered

/-- A first entry of one line. -/
theorem Logs.frame (h : u.linecount = s.linecount + 1)
    (hlog : u.logged = s.logged ++ [.frameSwapped d (s.linecount + 1)]) :
    Logs s u [.frameSwapped d (s.linecount + 1)] := ⟨hlog, h, numbered_frame⟩

theorem tableMoves_append : tableMoves (l ++ l') = tableMoves l ++ tableMoves l' :=
  List.filter_append ..

end Lists

section Rules

variable {α β : Type} {m : M α} {f : α → M β} {s : Machine}
  {Q Q' : α → Machine → List Message → Prop} {R : β → Machine → List Message → Prop}

theorem Enters.mono (hm : Enters m s Q) (h : ∀ a u l, Logs s u l → Q a u l → Q' a u l) :
    Enters m s Q' := by
  apply wp_imp hm
  intro a u hpost
  obtain ⟨l, hlogs, hQ⟩ := hpost
  exact ⟨l, hlogs, h a u l hlogs hQ⟩

theorem Enters.bind (hm : Enters m s Q) (hf : ∀ a u l, Logs s u l → Q a u l →
    Enters (f a) u fun b v l' => R b v (l ++ l')) : Enters (m >>= f) s R := by
  apply wp_seq hm
  intro a u hpost
  obtain ⟨l, hlogs, hQ⟩ := hpost
  apply wp_imp (hf a u l hlogs hQ)
  intro b v hrest
  obtain ⟨l', hlogs', hR⟩ := hrest
  exact ⟨l ++ l', hlogs.trans hlogs', hR⟩

theorem Enters.pure {a : α} (h : Q a s []) : Enters (pure a) s Q := ⟨[], .refl, h⟩

theorem Enters.of_run {a : α} {u : Machine} (h : m.run s = .ok a u) (hu : u.ledger = s.ledger)
    (hQ : Q a u []) : Enters m s Q := (wp_of_ok h).mpr ⟨[], .of_ledger hu, hQ⟩

theorem Enters.of_still (hm : Still m) (hQ : ∀ a u, Q a u []) : Enters m s Q :=
  hm.wp (fun a u hu => ⟨[], .of_ledger hu, hQ a u⟩) fun _ _ _ _ => trivial

/-- A first part that adds nothing. -/
theorem Enters.still (hm : Still m) (hf : ∀ a u, u.ledger = s.ledger → Enters (f a) u R) :
    Enters (m >>= f) s R := by
  unfold Enters
  rw [wp_bind]
  apply hm.wp
  · intro a u hu
    apply wp_imp (hf a u hu)
    intro b v hpost
    obtain ⟨l, hlogs, hR⟩ := hpost
    exact ⟨l, (Logs.of_ledger hu).trans hlogs, hR⟩
  · exact fun _ _ _ _ => trivial

/-- A first part whose effect is known. -/
theorem Enters.step {a : α} {u : Machine} (h : m.run s = .ok a u) (hu : u.ledger = s.ledger)
    (hf : Enters (f a) u R) : Enters (m >>= f) s R := by
  apply wp_step h
  apply wp_imp hf
  intro b v hpost
  obtain ⟨l, hlogs, hR⟩ := hpost
  exact ⟨l, (Logs.of_ledger hu).trans hlogs, hR⟩

theorem Enters.congr {m' : M α} (h : m.run s = m'.run s) (hm : Enters m' s Q) : Enters m s Q :=
  wp_congr h hm

theorem Enters.and {P : α → Machine → Prop} {E : Fault → Machine → Prop} (hm : Enters m s Q)
    (hP : wp m P E s) : Enters m s fun a u l => Q a u l ∧ P a u := by
  unfold Enters
  apply wp_mono (wp_and hm hP)
  · intro a u hpost
    obtain ⟨⟨l, hlogs, hQ⟩, hPu⟩ := hpost
    exact ⟨l, hlogs, hQ, hPu⟩
  · exact fun _ _ _ => trivial

/-- A part that only reads, prints other messages and assigns bytes. -/
theorem Enters.of_idle (hm : Idle m) (hQ : ∀ a u, u.toFrames = s.toFrames → Q a u []) :
    Enters m s Q := by
  apply hm.wp
  · intro a u hu
    have hcontrol : u.control = s.control := congrArg Prod.fst hu
    have hlogged : u.logged = s.logged := congrArg Prod.snd hu
    refine ⟨[], .of_ledger ?_, hQ a u (control_toFrames hcontrol)⟩
    rw [ledger, ledger, hlogged, control_linecount hcontrol]
  · exact fun _ _ _ _ => trivial

theorem Enters.idle {P : Machine → List Message → Prop} (hm : Enters m s fun _ => P)
    (hf : ∀ a, Idle (f a)) (hP : ∀ u v l, v.toFrames = u.toFrames → P u l → P v l) :
    Enters (m >>= f) s fun _ => P := by
  apply hm.bind
  intro a u l _ hu
  apply of_idle (hf a)
  intro b v hframes
  rw [List.append_nil]
  exact hP u v l hframes hu

end Rules

/-! ## What adds nothing -/

section Still

variable {α : Type} {m : M α} (pid address : Int)

theorem still_of_real (hm : Preserves Fault.Real Machine.ledger m) : Still m :=
  hm.weaken fun _ _ => trivial

theorem still_of_idle (hm : Idle m) : Still m :=
  still_of_real (hm.comp fun v => (v.1.2.2.1, v.2))

theorem idle_poke (i : Int) (v : UInt8) : Idle (poke i v) := by
  intro s
  unfold wp EStateM.run poke
  split_ifs
  · rfl
  · exact ⟨nofun, rfl⟩

theorem idle_say {m : Message} (hm : m.isLogged = false) : Idle (say m) := by
  apply Preserves.modify
  intro s
  show (s.control, List.filter _ (s.out ++ [m])) = _
  simp [logged, hm]

theorem still_peek (i : Int) : Still (peek i) := still_of_real (peek_preserves i)

theorem still_poke (i : Int) (v : UInt8) : Still (poke i v) := still_of_idle (idle_poke i v)

theorem still_say {m : Message} (hm : m.isLogged = false) : Still (say m) :=
  still_of_idle (idle_say hm)

theorem still_note (c : Call) : Still (note c) := .modify fun _ => rfl

theorem still_uninitialised : Still uninitialised := fun _ => rfl

theorem still_hardwareOf : Still (hardwareOf pid) := still_of_real (hardwareOf_preserves pid)

theorem still_frameIndex : Still (frameIndex address) :=
  still_of_real (frameIndex_preserves address)

theorem still_setHardware (hp : Hp) : Still (setHardware pid hp) :=
  (still_of_real (hardwareIndex_preserves pid)).bind fun _ => .modify fun _ => rfl

theorem still_setPages : Still (setPages address pid) :=
  (still_frameIndex address).bind fun _ => .modify fun _ => rfl

theorem still_setFreelist (free : Bool) : Still (setFreelist address free) :=
  (still_frameIndex address).bind fun _ => .modify fun _ => rfl

theorem still_setIspagetable (table : Bool) : Still (setIspagetable address table) :=
  (still_frameIndex address).bind fun _ => .modify fun _ => rfl

theorem still_findpte (vaddr : Nat) : Still (findpte pid vaddr) :=
  still_of_real (findpte_preserves pid vaddr)

theorem still_convert (vaddr : Nat) : Still (convert vaddr pid) :=
  still_of_real (convert_preserves pid vaddr)

theorem still_findfree : Still findfree := by
  refine .bind .get fun s => ?_
  split
  · exact (still_setFreelist _ _).bind fun _ => .pure _
  · exact .pure _

theorem still_pageFromFile (buffer : Page) (linenum : Int) :
    Still (pageFromFile buffer linenum) := by
  refine .bind .get fun s => .ite ((still_say rfl).bind fun _ => .pure _) ?_
  split
  · exact .throw trivial
  · exact .pure _

theorem still_swaptomem (temp : Page) (base : Int) : Still (swaptomem temp base) :=
  .forM _ fun _ _ => still_poke _ _

theorem still_clear (base : Int) :
    Still (forM (List.range 16) fun (i : Nat) => poke (base + i) 0 : M PUnit) :=
  .forM _ fun _ _ => still_poke _ _

theorem still_loadPage (vaddr : Nat) : Still (loadPage pid vaddr) := by
  refine (still_findpte pid vaddr).bind fun pte => (still_peek _).bind fun line => ?_
  refine still_findfree.bind fun free => (still_note _).bind fun _ => ?_
  refine still_uninitialised.bind fun temp => ?_
  refine (still_pageFromFile temp line.toNat).bind fun result => ?_
  refine (still_swaptomem result.2 free).bind fun _ => ?_
  refine (still_setPages pid free).bind fun _ => ?_
  refine (still_findpte pid vaddr).bind fun pte => (still_poke _ _).bind fun _ => ?_
  refine (still_findpte pid vaddr).bind fun pte => (still_poke _ _).bind fun _ => ?_
  exact (still_say rfl).bind fun _ => .pure _

/-- The end of `load` and the loading branch of `command`. -/
theorem still_report (vaddr : Nat) : Still (do
    let paddr ← convert vaddr pid
    if paddr > 0 then
      say (.value vaddr (← peek paddr))
      return 1
    else
      return 0 : M Int) := by
  refine (still_convert pid vaddr).bind fun paddr => .ite ?_ (.pure _)
  exact (still_peek paddr).bind fun _ => (still_say rfl).bind fun _ => .pure _

theorem silent_appendPage (base : Int) : Silent (appendPage base) := by
  have hnext : Silent nextLine := by
    intro s
    unfold wp EStateM.run nextLine
    split_ifs
    · rfl
    · exact ⟨trivial, rfl⟩
  apply hnext.bind
  intro line
  have hbytes : Silent ((List.range 16).mapM fun (i : Nat) => peek (base + i)) :=
    .mapM _ fun _ _ => (peek_preserves _).weaken fun _ _ => trivial
  exact hbytes.bind fun _ => .bind (.modify fun _ => rfl) fun _ => .pure _

theorem silent_removePage (paddr : Int) : Silent (removePage pid paddr) := by
  have hpoke : ∀ i v, Silent (poke i v) := fun i v => (still_poke i v).comp Prod.snd
  have hsearch : ∀ pte, Silent (searchTable pte paddr) := fun pte =>
    (searchTable_preserves pte paddr).weaken fun _ _ => trivial
  refine Preserves.bind ((still_findpte pid 0).comp Prod.snd) fun pte => (hsearch pte).bind ?_
  intro vp
  refine (silent_appendPage paddr).bind fun fadr => (hpoke _ _).bind fun _ => ?_
  refine (hpoke _ _).bind fun _ => Preserves.bind ((still_clear paddr).comp Prod.snd) fun _ => ?_
  refine Preserves.bind ((still_setFreelist paddr true).comp Prod.snd) fun _ => ?_
  exact (still_setPages (-1) paddr).comp Prod.snd

end Still

/-! ## The evictions -/

def Machine.residency (s : Machine) (p : Fin 4) : Residency := (s.hardware p).inmem

/-- What a process that takes a frame for a page adds to the journal. -/
def Machine.supplied (s : Machine) : List Message :=
  match frameList.find? s.freelist with
  | some _ => []
  | none => [.frameSwapped s.victim.val (s.linecount + 1)]

section Evictions

variable {s : Machine} {p q d t : Fin 4} {vaddr : Nat} {val : UInt8}

theorem swapOutAt_enters (hp : s.pages d = q.val) (hq : s.TableAt q t) :
    Enters (swapOutAt d) s fun _ u l => u.toFrames = s.toFrames.evict d ∧
      l = [.frameSwapped d.val (s.linecount + 1)] := by
  have hq' : ((s.withFrames (s.toFrames.turnTo d)).noted (s.removal d)).TableAt q t := hq
  unfold Enters wp
  rw [swapOutAt_run, hp]
  show wp _ _ _ _
  rw [wp_bind]
  apply wp_mono (wp_and (removePage_spec hq') (silent_removePage (q.val : Int) (16 * d.val) _))
  · intro _ u hpost
    obtain ⟨⟨-, hu⟩, hlogged⟩ := hpost
    have hcount : u.linecount = s.linecount + 1 := control_linecount hu
    refine ⟨_, .frame (d := d.val) hcount ?_, ?_, rfl⟩
    · have hlogged : u.logged = s.logged := hlogged
      rw [← hlogged, ← hcount]
      show List.filter _ (u.out ++ [_]) = _
      rw [List.filter_append]
      rfl
    · show u.toFrames.turnTo (u.roundrobin + 1) = _
      rw [control_toFrames hu]
      rfl
  · exact fun _ _ _ => trivial

theorem removePageTable_enters (hq : s.TableAt q t) :
    Enters (removePageTable q.val) s fun _ u l =>
      u.toFrames = s.toFrames.dropTable t q s.linecount ∧ l = [.tableSwapped q.val] := by
  apply wp_mono (removePageTable_spec hq)
  · intro _ u hpost
    obtain ⟨-, rfl⟩ := hpost
    refine ⟨_, ⟨?_, rfl, numbered_table q.val⟩, rfl, rfl⟩
    show List.filter _ (s.out ++ [_]) = _
    rw [List.filter_append]
    rfl
  · exact fun _ _ _ => trivial

/-- A page table that comes back is logged as well. -/
theorem loadPageTable_enters (pid : Int) :
    Enters (loadPageTable pid) s fun a _ l => l = [.tableLoaded pid a] := by
  refine .still (still_hardwareOf pid) fun hp _ _ => .still still_findfree fun free _ _ => ?_
  refine .still (still_note _) fun _ _ _ => .still still_uninitialised fun temp _ _ => ?_
  refine .still (still_pageFromFile temp hp.address) fun result _ _ => ?_
  refine .still (still_swaptomem result.2 free) fun _ _ _ => ?_
  refine .still (still_setPages pid free) fun _ _ _ => ?_
  refine .still (still_setHardware pid _) fun _ _ _ => ?_
  refine .still (still_setIspagetable free true) fun _ u _ => ⟨_, ⟨?_, rfl, ?_⟩, rfl⟩
  · show List.filter _ (u.out ++ [_]) = _
    rw [List.filter_append]
    rfl
  · intro front d line back h
    cases front with
    | nil => simp at h
    | cons m front => simp at h

theorem freespace_enters (hready : s.Ready) (hused : ∀ i, s.freelist i = false) (p : Fin 4) :
    Enters (freespace 1 p.val) s fun _ u l => u.toFrames = s.toFrames.evict s.victim ∧
      l = [.frameSwapped s.victim.val (s.linecount + 1)] := by
  obtain ⟨q, t, hq, ht⟩ := hready.owner hused s.victim
  have hcount : s.freeCount + 1 = 1 := by rw [Frames.freeCount_eq_zero hused]
  exact .congr (freespace_one hcount (hready.ownFlagged p)) (swapOutAt_enters hq ht)

theorem obtainFrame_enters (hready : s.Ready) (p : Fin 4) :
    Enters (obtainFrame p.val) s fun _ _ l => l = s.supplied := by
  cases hfind : frameList.find? s.freelist with
  | some i =>
    have hpos : ¬ (16 * (i.val : Int)) < 0 := by omega
    refine .step (findfree_some hfind) rfl ?_
    rw [if_neg hpos]
    exact .of_still (.pure _) fun _ _ => by rw [supplied, hfind]
  | none =>
    refine .step (findfree_none hfind) rfl ?_
    rw [if_pos (by decide)]
    apply (freespace_enters hready (Frames.used_of_find?_none hfind) p).bind
    intro _ u l _ hpost
    rw [supplied, hfind, hpost.2]
    exact .still still_findfree fun _ _ _ => .still (still_note _) fun _ _ _ =>
      .of_still (.pure _) fun _ _ => rfl

end Evictions

/-! ## The commands of a process whose page table is in memory -/

section Resident

variable {s : Machine} {p t : Fin 4} {vaddr : Nat} {val : UInt8} {c : Cmd}

theorem mapPage_enters (hready : s.Ready) (hp : s.TableAt p t) (hv : vaddr < 64) :
    Enters (mapPage p.val vaddr val) s fun _ _ l =>
      l = if s.valpres p vaddr = 2 then [] else s.supplied := by
  refine .step (findpte_memory hp vaddr) rfl (.step (peek_valpres hp hv) rfl ?_)
  by_cases hpresent : s.valpres p vaddr = 2
  · rw [if_pos hpresent]
    refine .of_still ?_ fun _ _ => by rw [if_pos hpresent]
    refine (still_peek _).bind fun protection => .ite ?_ ?_
    · exact (still_say rfl).bind fun _ => .pure _
    · exact (still_say rfl).bind fun _ => (still_poke _ _).bind fun _ => .pure _
  · rw [if_neg hpresent]
    apply (obtainFrame_enters hready p).bind
    intro ppage u l _ hl
    rw [if_neg hpresent]
    refine .of_still ?_ fun _ _ => by rw [hl, List.append_nil]
    refine (still_setPages p.val ppage).bind fun _ => (still_peek _).bind fun vpn => ?_
    refine (still_say rfl).bind fun _ => (still_poke _ _).bind fun _ => ?_
    exact (still_poke _ _).bind fun _ => (still_poke _ _).bind fun _ => .pure _

theorem load_enters (hready : s.Ready) (hp : s.TableAt p t) (hv : vaddr < 64) :
    Enters (load p.val vaddr val) s fun _ _ l =>
      l = if s.valpres p vaddr = 1 then s.supplied else [] := by
  refine .step (findpte_memory hp vaddr) rfl ?_
  rw [if_pos (by omega)]
  refine .step (peek_valpres hp hv) rfl ?_
  have hrest : Still (do
      let _ ← loadPage p.val vaddr
      let paddr ← convert vaddr p.val
      if paddr > 0 then
        say (.value vaddr (← peek paddr))
        return 1
      else
        return 0 : M Int) := (still_loadPage p.val vaddr).bind fun _ => still_report p.val vaddr
  by_cases hdisk : s.valpres p vaddr = 1
  · rw [if_pos hdisk]
    refine .step get_run rfl ?_
    cases hfind : frameList.find? s.freelist with
    | some i =>
      rw [if_pos (any_of_find?_some hfind)]
      exact .of_still hrest fun _ _ => by rw [if_pos hdisk, supplied, hfind]
    | none =>
      have hused := Frames.used_of_find?_none hfind
      rw [if_neg (not_any_of_used hused)]
      apply (freespace_enters hready hused p).bind
      intro _ u l _ hpost
      refine .of_still hrest fun _ _ => ?_
      rw [if_pos hdisk, supplied, hfind, hpost.2, List.append_nil]
  · rw [if_neg hdisk]
    refine .of_still ?_ fun _ _ => by rw [if_neg hdisk]
    refine .ite ?_ ?_
    · exact (still_convert _ _).bind fun _ => (still_peek _).bind fun _ =>
        (still_say rfl).bind fun _ => .pure _
    · exact (still_convert _ _).bind fun _ => (still_peek _).bind fun _ =>
        (still_say rfl).bind fun _ => .pure _

theorem store_enters (hp : s.TableAt p t) :
    Enters (store p.val vaddr val) s fun _ u l => u.toFrames = s.toFrames ∧ l = [] := by
  refine .step (findpte_memory hp vaddr) rfl ?_
  rw [if_pos (by omega)]
  have hrest : Idle (do
      let paddr ← convert vaddr p.val
      if paddr < 0 then
        say (.storeSegfault vaddr)
        return 0
      else if (← peek (16 * t.val + 4 * (vaddr / 16 : Nat) + 2)) = 1 then
        poke paddr val
        say (.stored val paddr)
        return 1
      else
        say (.notWriteable vaddr)
        return 0 : M Int) := by
    refine (convert_preserves _ _).bind fun paddr => .ite ?_ ?_
    · exact (idle_say rfl).bind fun _ => .pure _
    · refine (peek_preserves _).bind fun writable => .ite ?_ ?_
      · exact (idle_poke _ _).bind fun _ => (idle_say rfl).bind fun _ => .pure _
      · exact (idle_say rfl).bind fun _ => .pure _
  apply Enters.of_idle hrest
  exact fun _ u hu => ⟨hu, rfl⟩

theorem tableMoves_supplied : tableMoves s.supplied = [] := by
  unfold supplied
  split <;> rfl

theorem countP_supplied : s.supplied.countP Message.isEviction ≤ 1 := by
  unfold supplied
  split
  · exact Nat.zero_le 1
  · exact le_rfl

/-- The command takes no frame, or takes one for a page. -/
def Served (s u : Machine) (p : Fin 4) (l : List Message) : Prop :=
  l = [] ∧ u.toFrames = s.toFrames ∨ l = s.supplied ∧ u.toFrames = s.toFrames.supply p

theorem run_resident (hdisk : s.DiskOk) (hcalls : s.CallsOk) (hstage : s.Stage)
    (hp : s.TableAt c.pid t) : Enters c.run s fun _ u l => Served s u c.pid l := by
  cases c with
  | map p vaddr val =>
    refine .step (mapTable_memory hp vaddr.val) rfl ?_
    apply ((mapPage_enters hstage.ready hp vaddr.isLt).and
      (mapPage_yields hdisk hcalls hstage.ready hp vaddr.isLt)).mono
    intro _ u l _ hpost
    obtain ⟨hl, hu, -⟩ := hpost
    split_ifs at hl hu
    · exact .inl ⟨hl, hu⟩
    · exact .inr ⟨hl, hu⟩
  | store p vaddr val => exact (store_enters hp).mono fun _ _ _ _ hpost => .inl ⟨hpost.2, hpost.1⟩
  | load p vaddr val =>
    apply ((load_enters hstage.ready hp vaddr.isLt).and
      (load_yields hdisk hcalls hstage.ready hp vaddr.isLt)).mono
    intro _ u l _ hpost
    obtain ⟨hl, hu, -⟩ := hpost
    split_ifs at hl hu
    · exact .inr ⟨hl, hu⟩
    · exact .inl ⟨hl, hu⟩

/-- Without a page table the other two commands only print. -/
theorem run_unset (hin : (s.hardware c.pid).inmem = .unset)
    (hc : ∀ p vaddr val, c ≠ .map p vaddr val) :
    Enters c.run s fun _ u l => l = [] ∧ u.toFrames = s.toFrames := by
  cases c with
  | map p vaddr val => exact absurd rfl (hc p vaddr val)
  | store p vaddr val =>
    refine .step (findpte_unset hin vaddr) rfl ?_
    rw [if_neg (by decide), if_neg (by decide), if_pos rfl]
    exact .of_idle ((idle_say rfl).bind fun _ => .pure _) fun _ _ hu => ⟨rfl, hu⟩
  | load p vaddr val =>
    refine .step (findpte_unset hin vaddr) rfl ?_
    rw [if_neg (by decide), if_neg (by decide), if_pos rfl]
    exact .of_idle ((idle_say rfl).bind fun _ => .pure _) fun _ _ hu => ⟨rfl, hu⟩

end Resident

/-! ## The steps -/

section Steps

variable {s s' : Machine} {e : Event}

/-- The entries of a step are those of its command. -/
theorem step_enters {Q : Int → Machine → List Message → Prop} (hstep : memsim.step s e s')
    (hrun : Enters e.cmd.run s.reset Q) :
    Logs s.reset s' (journal [e]) ∧ Q e.ret s' (journal [e]) := by
  obtain ⟨hexec, hout⟩ := hstep
  obtain ⟨l, hlogs, hQ⟩ := wp_ok hrun hexec
  have hl : l = journal [e] := by
    have hlogged : s'.logged = [] ++ l := hlogs.logged
    rw [List.nil_append] at hlogged
    rw [← hlogged, logged, ← hout, journal]
    simp
  rw [← hl]
  exact ⟨hlogs, hQ⟩

theorem journal_cons (h : List Event) : journal (e :: h) = journal h ++ journal [e] := by
  simp [journal]

end Steps

end Cs3013.Memory
