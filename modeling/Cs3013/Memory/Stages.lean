import Cs3013.Memory.Ownership

/-!
# The stages of a run

The frames fill up while one process runs alone, and stay full from then on. `Kept` lists the
stages in which the frames are `Owned`; `Overrun` is the stage after a frame that holds a page
table was taken for a page of another process.
-/
namespace Cs3013.Memory

namespace Frames

/-- The frames as the start of `main` leaves them. -/
def start : Frames where
  freelist _ := true
  pages _ := -1
  ispagetable _ := false
  hardware _ := ⟨0, .unset⟩
  roundrobin := 0

/-- The first `k` frames belong to `p`, its page table lies in frame 0. -/
def starting (p : Fin 4) (k : Nat) : Frames where
  freelist i := decide (k ≤ i.val)
  pages i := if i.val < k then p.val else -1
  ispagetable i := decide (i = 0)
  hardware := Function.update (fun _ => ⟨0, .unset⟩) p ⟨0, .memory⟩
  roundrobin := 1

/-- No frame is free, frame 0 holds a page table, and while a page table is in the file all others
are in memory. -/
structure Full (f : Frames) : Prop where
  owned : f.Owned
  used : ∀ i, f.freelist i = false
  based : f.ispagetable 0 = true
  disk : ∀ p, (f.hardware p).inmem = .file → ∀ q, q ≠ p → ∃ t, f.TableAt q t

inductive Kept (f : Frames) : Prop
  | fresh (h : f = start)
  | starting (p k : Fin 4) (hk : k = 2 ∨ k = 3) (h : f = Frames.starting p k.val)
  | full (h : f.Full)

/-- All four frames are flagged as page tables, whatever they hold. -/
structure Overrun (f : Frames) : Prop where
  used : ∀ i, f.freelist i = false
  owner : ∀ i, ∃ p : Fin 4, f.pages i = p.val
  flagged : ∀ i, f.ispagetable i = true
  resident : ∀ p, ∃ t, f.TableAt p t

def Stage (f : Frames) : Prop := f.Kept ∨ f.Overrun

/-- The frame that is swapped out next when one is needed. -/
def victim (f : Frames) : Fin 4 := f.nextPage (f.roundrobin + 1)

def evict (f : Frames) (d : Fin 4) : Frames := (f.dropPage d).turnTo (d + 1)

/-- The frames after `p` has taken one for a page. -/
def supply (f : Frames) (p : Fin 4) : Frames :=
  match frameList.find? f.freelist with
  | some i => f.givePage i p
  | none => (f.evict f.victim).givePage f.victim p

/-- The frames after the page table of `p` has come back from the file. -/
def fetchTable (f : Frames) (p : Fin 4) : Frames := (f.evict f.victim).giveTable f.victim p

/-- Frame `i` entered as one of `p`. -/
def enter (f : Frames) (i p : Fin 4) : Frames :=
  { f with pages := Function.update f.pages i p.val }

/-- What `supply` needs: an owner in memory for every frame that may be swapped out. -/
structure Ready (f : Frames) : Prop where
  ownFlagged : ∀ p, f.OwnFlagged p
  owner : (∀ i, f.freelist i = false) → ∀ i, ∃ p t, f.pages i = (p.val : Int) ∧ f.TableAt p t

variable {f : Frames} {p q i d t : Fin 4}

/-! ## Free frames -/

theorem find?_eq_none (h : ∀ i, f.freelist i = false) : frameList.find? f.freelist = none := by
  simp [h]

theorem freeCount_eq_zero (h : ∀ i, f.freelist i = false) : f.freeCount = 0 := by
  simp [freeCount, h]

theorem find?_evict (h : ∀ i, f.freelist i = false) :
    frameList.find? (f.evict d).freelist = some d := by
  have hd : (f.evict d).freelist = fun i => decide (i = d) := by
    funext i
    by_cases hi : i = d
    · simp [evict, dropPage, Frames.turnTo, hi]
    · simp [evict, dropPage, Frames.turnTo, hi, h i]
  have hall : ∀ d : Fin 4, frameList.find? (fun i => decide (i = d)) = some d := by decide
  rw [hd, hall]

theorem used_of_find?_none (h : frameList.find? f.freelist = none) (i : Fin 4) :
    f.freelist i = false := by
  rw [List.find?_eq_none] at h
  have hi : i ∈ frameList := by
    revert i
    decide
  exact Bool.eq_false_iff.mpr (h i hi)

theorem free_of_find?_some (h : frameList.find? f.freelist = some i) : f.freelist i = true :=
  List.find?_some h

/-- Giving away a frame that was just swapped out only changes its owner and the counter. -/
theorem givePage_evict : (f.evict d).givePage d p = (f.givePage d p).turnTo (d + 1) := by
  simp only [evict, dropPage, Frames.turnTo, givePage, take, Function.update_idem]

theorem giveTable_evict : (f.evict d).giveTable d p = (f.giveTable d p).turnTo (d + 1) := by
  simp only [evict, dropPage, Frames.turnTo, giveTable, givePage, take, Function.update_idem]

theorem supply_used (h : ∀ i, f.freelist i = false) :
    f.supply p = (f.givePage f.victim p).turnTo (f.victim + 1) := by
  rw [supply, find?_eq_none h, givePage_evict]

/-! ## The beginning of a run -/

theorem starting_find? (p k : Fin 4) :
    frameList.find? (starting p k.val).freelist = some k := by
  revert k
  show ∀ k : Fin 4, frameList.find? (fun i : Fin 4 => decide (k.val ≤ i.val)) = some k
  decide

theorem starting_givePage (p k : Fin 4) :
    (starting p k.val).givePage k p = starting p (k.val + 1) := by
  simp only [givePage, take, starting, mk.injEq, and_true]
  constructor
  · funext i
    by_cases hi : i = k
    · subst hi
      simp
    · have hlt : k.val ≠ i.val := fun h => hi (Fin.ext h.symm)
      rw [Function.update_of_ne hi]
      exact decide_eq_decide.mpr ⟨fun h => by omega, fun h => by omega⟩
  · funext i
    by_cases hi : i = k
    · subst hi
      simp
    · have hlt : k.val ≠ i.val := fun h => hi (Fin.ext h.symm)
      rw [Function.update_of_ne hi]
      exact if_congr (by omega) rfl rfl

theorem starting_tableAt (p : Fin 4) (k : Nat) : (starting p k).TableAt p 0 := by
  simp [TableAt, starting]

theorem starting_other (k : Nat) (hqp : q ≠ p) : (starting p k).hardware q = ⟨0, .unset⟩ := by
  simp [starting, hqp]

theorem starting_owned (p : Fin 4) {k : Nat} (hk : 0 < k) : (starting p k).Owned where
  free i := by
    by_cases hi : i.val < k
    · simp [starting, hi, pages_ne_none p]
    · simp [starting, hi, Nat.le_of_not_lt hi]
  owner i hi := by
    by_cases hlt : i.val < k
    · exact ⟨p, 0, if_pos hlt, starting_tableAt p k⟩
    · simp [starting, hlt] at hi
  table q i hq := by
    by_cases hqp : q = p
    · subst hqp
      obtain rfl := (starting_tableAt q k).frame_inj hq
      exact ⟨rfl, if_pos hk⟩
    · have hmem := hq.inmem
      rw [starting_other k hqp] at hmem
      cases hmem
  resident q hq := by
    by_cases hqp : q = p
    · subst hqp
      exact ⟨0, starting_tableAt q k⟩
    · rw [starting_other k hqp] at hq
      cases hq
  flagged i hi := by
    obtain rfl : i = 0 := of_decide_eq_true hi
    exact ⟨p, starting_tableAt p k⟩

theorem starting_not_file (p : Fin 4) (k : Nat) (q : Fin 4) :
    ((starting p k).hardware q).inmem ≠ .file := by
  by_cases hqp : q = p
  · subst hqp
    rw [(starting_tableAt q k).inmem]
    decide
  · rw [starting_other k hqp]
    decide

theorem starting_full (p : Fin 4) : (starting p 4).Full where
  owned := starting_owned p (by decide)
  used i := decide_eq_false (by omega)
  based := rfl
  disk q hq := absurd hq (starting_not_file p 4 q)

theorem starting_freeCount (p k : Fin 4) : (starting p k.val).freeCount = 4 - k.val := by
  revert k
  show ∀ k : Fin 4, frameList.countP (fun i : Fin 4 => decide (k.val ≤ i.val)) = 4 - k.val
  decide

theorem starting_supply (p k : Fin 4) :
    (starting p k.val).supply p = starting p (k.val + 1) := by
  rw [supply, starting_find? p k]
  exact starting_givePage p k

/-! ## One frame for a page -/

theorem victim_not_flagged (h : f.ispagetable i = false) : f.ispagetable f.victim = false :=
  f.nextPage_not_flagged _ h

theorem all_flagged_of_victim (h : f.ispagetable f.victim = true) (i : Fin 4) :
    f.ispagetable i = true := by
  rw [← Bool.not_eq_false]
  intro hi
  rw [victim_not_flagged hi] at h
  cases h

theorem victim_all_flagged (h : ∀ i, f.ispagetable i = true) : f.victim = f.roundrobin + 1 :=
  f.nextPage_all_flagged _ h

theorem Full.ready (h : f.Full) : f.Ready where
  ownFlagged := h.owned.ownFlagged
  owner _ i := h.owned.owner_of_used (h.used i)

theorem free_of_givePage (hi : (f.givePage d p).freelist i = true) :
    i ≠ d ∧ f.freelist i = true := by
  have hne : i ≠ d := by
    intro heq
    subst heq
    have hused : (f.givePage i p).freelist i = false := Function.update_self i _ _
    cases hused.symm.trans hi
  exact ⟨hne, (Function.update_of_ne hne _ _).symm.trans hi⟩

theorem givePage_used (h : ∀ i, f.freelist i = false) (i : Fin 4) :
    (f.givePage d p).freelist i = false := by
  by_cases hi : i = d
  · subst hi
    exact Function.update_self _ _ _
  · exact (Function.update_of_ne hi _ _).trans (h i)

theorem Full.supply (h : f.Full) (hp : f.TableAt p t)
    (hvictim : f.ispagetable f.victim = false ∨ f.pages f.victim = p.val) :
    (f.supply p).Full := by
  rw [supply_used h.used]
  refine ⟨Owned.turnTo ?_ _, givePage_used (p := p) h.used, h.based, h.disk⟩
  cases hflag : f.ispagetable f.victim with
  | false => exact h.owned.givePage hp hflag
  | true =>
    obtain ⟨q, hq⟩ := h.owned.flagged _ hflag
    have hpages := (h.owned.table q _ hq).2
    rcases hvictim with hfalse | hself
    · rw [hflag] at hfalse
      cases hfalse
    · obtain rfl : q = p := pages_natCast_inj (hpages.symm.trans hself)
      exact h.owned.givePage_self hq

theorem Full.supply_overrun (h : f.Full) (hall : ∀ i, f.ispagetable i = true) (p : Fin 4) :
    (f.supply p).Overrun := by
  rw [supply_used h.used]
  refine ⟨givePage_used (p := p) h.used, fun i => ?_, hall, h.owned.all_resident hall⟩
  by_cases hi : i = f.victim
  · subst hi
    exact ⟨p, Function.update_self _ _ _⟩
  · obtain ⟨q, -, hq, -⟩ := h.owned.owner_of_used (h.used i)
    exact ⟨q, (Function.update_of_ne hi _ _).trans hq⟩

theorem Overrun.supply (h : f.Overrun) (p : Fin 4) : (f.supply p).Overrun := by
  rw [supply_used h.used]
  refine ⟨givePage_used (p := p) h.used, fun i => ?_, h.flagged, h.resident⟩
  by_cases hi : i = f.victim
  · subst hi
    exact ⟨p, Function.update_self _ _ _⟩
  · obtain ⟨q, hq⟩ := h.owner i
    exact ⟨q, (Function.update_of_ne hi _ _).trans hq⟩

theorem Overrun.ready (h : f.Overrun) : f.Ready where
  ownFlagged _ i _ := h.flagged i
  owner _ i := by
    obtain ⟨q, hq⟩ := h.owner i
    obtain ⟨t, ht⟩ := h.resident q
    exact ⟨q, t, hq, ht⟩

theorem starting_ready (p : Fin 4) {k : Nat} (hk : 0 < k) : (starting p k).Ready where
  ownFlagged := (starting_owned p hk).ownFlagged
  owner h i := (starting_owned p hk).owner_of_used (h i)

/-- All four frames hold page tables, and the next one in turn is not the one of `p`. -/
def Crowded (f : Frames) (p : Fin 4) : Prop :=
  (∀ i, f.ispagetable i = true) ∧ f.pages (f.roundrobin + 1) ≠ p.val

instance (f : Frames) (p : Fin 4) : Decidable (f.Crowded p) :=
  inferInstanceAs (Decidable (_ ∧ _))

/-- The stages once the first command has been carried out. -/
theorem Kept.supply (h : f.Kept) (hp : f.TableAt p t) (hcrowd : ¬ f.Crowded p) :
    (f.supply p).Kept := by
  cases h with
  | fresh h =>
    subst h
    cases congrArg Hp.inmem hp
  | starting q k hk h =>
    subst h
    obtain rfl : p = q := by
      by_contra hne
      rw [TableAt, starting_other k.val hne] at hp
      cases congrArg Hp.inmem hp
    rw [starting_supply]
    rcases hk with rfl | rfl
    · exact .starting p 3 (.inr rfl) rfl
    · exact .full (starting_full p)
  | full h =>
    refine .full (h.supply hp ?_)
    by_contra hnot
    simp only [not_or, Bool.not_eq_false] at hnot
    have hall := all_flagged_of_victim hnot.1
    rw [victim_all_flagged hall] at hnot
    exact hcrowd ⟨hall, hnot.2⟩

theorem Stage.supply (h : f.Stage) (hp : f.TableAt p t) : (f.supply p).Stage := by
  rcases h with h | h
  · by_cases hcrowd : f.Crowded p
    · cases h with
      | fresh h =>
        subst h
        cases hcrowd.1 0
      | starting q k hk h =>
        subst h
        cases hcrowd.1 1
      | full h => exact .inr (h.supply_overrun hcrowd.1 p)
    · exact .inl (h.supply hp hcrowd)
  · exact .inr (h.supply p)

theorem Kept.owned (h : f.Kept) : f.Owned := by
  cases h with
  | fresh h =>
    subst h
    refine ⟨fun i => by simp [start], fun i hi => absurd rfl hi, fun p i hp => ?_, fun p hp => ?_,
      fun i hi => ?_⟩
    · cases congrArg Hp.inmem hp
    · cases hp
    · cases hi
  | starting q k hk h =>
    subst h
    refine starting_owned q ?_
    rcases hk with rfl | rfl <;> decide
  | full h => exact h.owned

theorem Kept.based (h : f.Kept) (hp : f.TableAt p t) : f.ispagetable 0 = true := by
  cases h with
  | fresh h =>
    subst h
    cases congrArg Hp.inmem hp
  | starting q k hk h =>
    subst h
    rfl
  | full h => exact h.based

theorem Stage.resident (h : f.Stage) (hp : (f.hardware p).inmem = .memory) :
    ∃ t, f.TableAt p t := by
  rcases h with h | h
  · exact h.owned.resident p hp
  · exact h.resident p

theorem Overrun.inmem (h : f.Overrun) (p : Fin 4) : (f.hardware p).inmem = .memory := by
  obtain ⟨t, ht⟩ := h.resident p
  exact ht.inmem

theorem Stage.kept (h : f.Stage) (hp : (f.hardware p).inmem ≠ .memory) : f.Kept :=
  h.resolve_right fun h => hp (h.inmem p)

theorem Stage.full (h : f.Stage) (hp : (f.hardware p).inmem = .file) : f.Full := by
  rcases h with h | h
  · cases h with
    | fresh h =>
      subst h
      cases hp
    | starting q k hk h =>
      subst h
      exact absurd hp (starting_not_file q k.val p)
    | full h => exact h
  · cases (h.inmem p).symm.trans hp

theorem Stage.ready (h : f.Stage) : f.Ready := by
  rcases h with h | h
  · exact ⟨h.owned.ownFlagged, fun hused i => h.owned.owner_of_used (hused i)⟩
  · exact h.ready

theorem start_giveTable (p : Fin 4) : (start.turnTo 1).giveTable 0 p = starting p 1 := by
  simp only [giveTable, givePage, take, Frames.turnTo, start, starting, mk.injEq, and_true]
  refine ⟨?_, ?_, ?_, ?_⟩
  · funext i
    revert i
    decide
  · funext i
    by_cases hi : i = 0
    · subst hi
      rfl
    · have hlt : ¬ i.val < 1 := by omega
      rw [Function.update_of_ne hi, if_neg hlt]
  · funext i
    revert i
    decide
  · rfl

/-- Taking a frame never leaves more frames free than before. -/
theorem supply_freeCount (f : Frames) (p : Fin 4) : (f.supply p).freeCount ≤ f.freeCount := by
  cases hfind : frameList.find? f.freelist with
  | none =>
    have hused := used_of_find?_none hfind
    have hzero : (f.supply p).freeCount = 0 := by
      rw [supply_used hused]
      exact freeCount_eq_zero (f := f.givePage f.victim p) (givePage_used hused)
    omega
  | some i =>
    rw [supply, hfind]
    refine List.countP_mono_left fun j _ hj => ?_
    by_cases hji : j = i
    · subst hji
      exact free_of_find?_some hfind
    · exact (Function.update_of_ne hji _ _).symm.trans hj

/-! ## A page table -/

theorem giveTable_used (h : ∀ i, f.freelist i = false) (i : Fin 4) :
    (f.giveTable d p).freelist i = false :=
  givePage_used (p := p) h i

theorem free_of_giveTable (hi : (f.giveTable d p).freelist i = true) :
    i ≠ d ∧ f.freelist i = true :=
  free_of_givePage (p := p) hi

theorem giveTable_tableAt : (f.giveTable d p).TableAt p d := Function.update_self _ _ _

theorem giveTable_flag : (f.giveTable d p).ispagetable d = true := Function.update_self _ _ _

theorem dropTable_free {n : Nat} : (f.dropTable d p n).freelist d = true :=
  Function.update_self _ _ _

theorem giveTable_other (hqp : q ≠ p) : (f.giveTable d p).TableAt q t ↔ f.TableAt q t := by
  have hhw : (f.giveTable d p).hardware q = f.hardware q := Function.update_of_ne hqp _ _
  rw [TableAt, TableAt, hhw]

/-- A page table that comes back from the file takes the frame of a page; then all tables are in
memory. -/
theorem Full.fetch (h : f.Full) (hp : (f.hardware p).inmem = .file) :
    (f.fetchTable p).Full ∧ ∀ i, (f.fetchTable p).ispagetable i = true := by
  rw [fetchTable, giveTable_evict]
  have hmem : (f.hardware p).inmem ≠ .memory := by
    rw [hp]
    decide
  obtain ⟨i, hi⟩ := h.owned.exists_not_flagged hmem
  have howned := h.owned.giveTable hmem (victim_not_flagged hi)
  have hresident : ∀ q, ∃ t, (f.giveTable f.victim p).TableAt q t := by
    intro q
    by_cases hqp : q = p
    · subst hqp
      exact ⟨_, giveTable_tableAt⟩
    · obtain ⟨t, ht⟩ := h.disk p hp q hqp
      exact ⟨t, (giveTable_other hqp).mpr ht⟩
  have hflagged := howned.all_flagged hresident
  exact ⟨⟨howned.turnTo _, giveTable_used (p := p) h.used, hflagged 0,
    fun q _ r _ => hresident r⟩, hflagged⟩

/-- Behind the frame of its own table, the next frame holds the table of another process. -/
theorem Full.fetch_crowded (h : f.Full) (hp : (f.hardware p).inmem = .file) :
    (f.fetchTable p).Crowded p := by
  obtain ⟨hfull, hflag⟩ := h.fetch hp
  refine ⟨hflag, fun hself => ?_⟩
  have hnext : (f.fetchTable p).roundrobin + 1 = f.victim + 2 := by
    have hadd : ∀ d : Fin 4, d + 1 + 1 = d + 2 := by decide
    exact hadd f.victim
  rw [hnext] at hself
  obtain ⟨q, hq⟩ := hfull.owned.flagged _ (hflag (f.victim + 2))
  have hqp := pages_natCast_inj ((hfull.owned.table q _ hq).2.symm.trans hself)
  subst hqp
  have hsame := hq.frame_inj giveTable_tableAt
  have hne : ∀ d : Fin 4, d + 2 ≠ d := by decide
  exact hne _ hsame

/-- Two frames are free for a process whose page table was never created. -/
structure Roomy (f : Frames) (p : Fin 4) : Prop where
  owned : f.Owned
  unset : (f.hardware p).inmem ≠ .memory
  free : ∃ a b, a ≠ b ∧ ∀ i, f.freelist i = decide (i = a ∨ i = b)
  based : f.ispagetable 0 = true ∨ f.freelist 0 = true
  disk : ∀ q, (f.hardware q).inmem = .file → ∀ r, r ≠ q → r ≠ p → ∃ t, f.TableAt r t

/-- The first two frames that `findfree` finds are the only ones. -/
theorem find?_two {free : Fin 4 → Bool} {a b : Fin 4} (hne : a ≠ b)
    (h : ∀ i, free i = decide (i = a ∨ i = b)) :
    ∃ i j, frameList.find? free = some i ∧
      frameList.find? (Function.update free i false) = some j ∧
      ∀ k, Function.update (Function.update free i false) j false k = false := by
  obtain rfl : free = fun i => decide (i = a ∨ i = b) := funext h
  clear h
  revert a b
  decide

theorem find?_zero {free : Fin 4 → Bool} (h : free 0 = true) :
    frameList.find? free = some 0 := by
  simp [frameList, h]

/-- The new page table goes to frame 0 when there is none. -/
theorem Roomy.giveTable_based (h : f.Roomy p) (hi : frameList.find? f.freelist = some i) :
    (f.giveTable i p).ispagetable 0 = true := by
  by_cases h0 : i = 0
  · subst h0
    exact giveTable_flag
  · rcases h.based with hflag | hfree
    · exact (Function.update_of_ne (Ne.symm h0) _ _).trans hflag
    · exact absurd (Option.some_inj.mp (hi.symm.trans (find?_zero hfree))) h0

theorem Roomy.full (h : f.Roomy p) : ∃ i, frameList.find? f.freelist = some i ∧
    ((f.giveTable i p).supply p).Full := by
  obtain ⟨a, b, hne, hfree⟩ := h.free
  obtain ⟨i, j, hi, hj, hused⟩ := find?_two hne hfree
  have hi' := h.owned.not_flagged_of_free (free_of_find?_some hi)
  have howned := h.owned.giveTable h.unset hi'
  have hj' : frameList.find? (f.giveTable i p).freelist = some j := hj
  refine ⟨i, hi, ?_⟩
  rw [supply, hj']
  refine ⟨howned.givePage giveTable_tableAt
    (howned.not_flagged_of_free (free_of_find?_some hj')), hused, h.giveTable_based hi, ?_⟩
  intro q hq r hrq
  show ∃ t, (f.giveTable i p).TableAt r t
  by_cases hrp : r = p
  · subst hrp
    exact ⟨i, giveTable_tableAt⟩
  · have hqp : q ≠ p := by
      intro heq
      subst heq
      have hmem := (giveTable_tableAt (f := f) (d := i) (p := q)).inmem
      rw [show ((f.giveTable i q).givePage j q).hardware q = (f.giveTable i q).hardware q from rfl,
        hmem] at hq
      cases hq
    have hq' : (f.hardware q).inmem = .file := by
      rw [← hq]
      exact congrArg Hp.inmem (Function.update_of_ne hqp _ _).symm
    obtain ⟨t, ht⟩ := h.disk q hq' r hrq hrp
    exact ⟨t, (giveTable_other hrp).mpr ht⟩

theorem Roomy.supply_full (h : f.Roomy p) (hi : frameList.find? f.freelist = some i) :
    ((f.giveTable i p).supply p).Full := by
  obtain ⟨j, hj, hfull⟩ := h.full
  obtain rfl : i = j := Option.some_inj.mp (hi.symm.trans hj)
  exact hfull

theorem Roomy.ready (h : f.Roomy p) (hi : frameList.find? f.freelist = some i) :
    (f.giveTable i p).Ready := by
  have howned := h.owned.giveTable h.unset (h.owned.not_flagged_of_free (free_of_find?_some hi))
  exact ⟨howned.ownFlagged, fun hused i => howned.owner_of_used (hused i)⟩

/-! ## Room for a new process -/

theorem starting_absent (hqp : p ≠ q) (k : Nat) :
    ((starting q k).hardware p).inmem ≠ .memory := by
  rw [starting_other k hqp]
  decide

/-- Behind two frames of the first process there is room. -/
theorem starting_roomy_two (hqp : p ≠ q) : ((starting q 2).turnTo 2).Roomy p where
  owned := (starting_owned q (by decide)).turnTo 2
  unset := starting_absent hqp 2
  free := ⟨2, 3, by decide, show ∀ i : Fin 4, decide (2 ≤ i.val) = decide (i = 2 ∨ i = 3) by decide⟩
  based := .inl rfl
  disk r hr := absurd hr (starting_not_file q 2 r)

/-- Behind three frames of the first process the last page has to leave. -/
theorem starting_roomy_three (hqp : p ≠ q) : ((starting q 3).evict 2).Roomy p where
  owned := ((starting_owned q (by decide)).dropPage rfl).turnTo _
  unset := starting_absent hqp 3
  free := ⟨2, 3, by decide, show ∀ i : Fin 4,
    Function.update (fun j : Fin 4 => decide (3 ≤ j.val)) 2 true i = decide (i = 2 ∨ i = 3) by
      decide⟩
  based := .inl rfl
  disk r hr := absurd hr (starting_not_file q 3 r)

theorem evict_free_two (h : ∀ i, f.freelist i = false) {a b : Fin 4} (i : Fin 4) :
    Function.update (Function.update f.freelist a true) b true i = decide (i = a ∨ i = b) := by
  by_cases hb : i = b
  · simp [hb]
  · by_cases ha : i = a
    · subst ha
      simp [Function.update_of_ne hb]
    · simp [ha, hb, h i]

section NewProcess

variable (h : f.Full) (hp : (f.hardware p).inmem = .unset)

include hp in
theorem not_memory_of_unset : (f.hardware p).inmem ≠ .memory := by
  rw [hp]
  decide

include h hp

/-- While a process has no table, none is in the file. -/
theorem Full.not_file : (f.hardware q).inmem ≠ .file := by
  intro hq
  have hpq : p ≠ q := by
    intro heq
    subst heq
    rw [hp] at hq
    cases hq
  obtain ⟨t, ht⟩ := h.disk q hq p hpq
  exact not_memory_of_unset hp ht.inmem

/-- Two pages leave where there are two. -/
theorem Full.roomy_two (hi : f.ispagetable i = false) (hne : i ≠ f.victim) :
    ((f.evict f.victim).evict (f.nextPage (f.victim + 1))).Roomy p where
  owned := ((h.owned.dropPage (victim_not_flagged hi)).turnTo _).dropPage
    (f.nextPage_not_flagged _ hi) |>.turnTo _
  unset := not_memory_of_unset hp
  free := ⟨f.victim, f.nextPage (f.victim + 1), (f.nextPage_succ hi hne).symm,
    evict_free_two h.used⟩
  based := .inl h.based
  disk _ hq := absurd hq (h.not_file hp)

/-- Where there is one page, it leaves together with the page table behind it. -/
theorem Full.roomy_table (honly : ∀ i, i ≠ f.victim → f.ispagetable i = true)
    (hq : f.TableAt q (f.victim + 1)) (line : Nat) :
    (((f.evict f.victim).dropTable (f.victim + 1) q line).turnTo (f.victim + 2)).Roomy p := by
  have hsucc : ∀ d : Fin 4, d + 1 ≠ d := by decide
  obtain ⟨i, hi⟩ := h.owned.exists_not_flagged (not_memory_of_unset hp)
  have hvictim := victim_not_flagged hi
  have howned := (h.owned.dropPage hvictim).turnTo (f.victim + 1)
  have hlast : ∀ i, i ≠ f.victim + 1 → (f.evict f.victim).pages i ≠ q.val := by
    intro i hi hpages
    by_cases hid : i = f.victim
    · subst hid
      have hnone : (f.evict f.victim).pages f.victim = -1 := Function.update_self _ _ _
      exact pages_ne_none q (hpages.symm.trans hnone)
    · have hpages' : f.pages i = q.val := (Function.update_of_ne hid _ _).symm.trans hpages
      obtain ⟨r, hr⟩ := h.owned.flagged i (honly i hid)
      obtain rfl := pages_natCast_inj ((h.owned.table r i hr).2.symm.trans hpages')
      exact hi (hr.frame_inj hq)
  -- with the table of `p` in the frame of the page, all four tables would be in memory
  have hresident : ∀ r, ∃ t, (f.giveTable f.victim p).TableAt r t := by
    refine (h.owned.giveTable (not_memory_of_unset hp) hvictim).all_resident fun i => ?_
    by_cases hid : i = f.victim
    · subst hid
      exact Function.update_self _ _ _
    · exact (Function.update_of_ne hid _ _).trans (honly i hid)
  have hother : ∀ r, r ≠ q →
      (((f.evict f.victim).dropTable (f.victim + 1) q line).turnTo (f.victim + 2)).hardware r =
        f.hardware r := fun r hrq => Function.update_of_ne hrq _ _
  have hpq : p ≠ q := by
    intro heq
    subst heq
    exact not_memory_of_unset hp hq.inmem
  refine ⟨(howned.dropTable hq hlast line).turnTo _, ?_, ?_, ?_, ?_⟩
  · rw [hother p hpq]
    exact not_memory_of_unset hp
  · exact ⟨f.victim, f.victim + 1, (hsucc _).symm, evict_free_two h.used⟩
  · by_cases h0 : f.victim + 1 = 0
    · right
      rw [← h0]
      exact dropTable_free (p := q) (n := line)
    · left
      exact (Function.update_of_ne (Ne.symm h0) false f.ispagetable).trans h.based
  · intro r hr r' hrr' hrp'
    have hrq : r = q := by
      by_contra hrq
      rw [hother r hrq] at hr
      exact h.not_file hp hr
    subst hrq
    obtain ⟨t, ht⟩ := hresident r'
    exact ⟨t, (hother r' hrr').trans ((giveTable_other hrp').mp ht)⟩

end NewProcess

/-! ## What a command does -/

/-- The frames when the page table of `p` has been brought in. -/
def withTable (f : Frames) (p : Fin 4) : Frames :=
  if (f.hardware p).inmem = .file then f.fetchTable p else f

/-- The stage and the number of free frames behind a command of `p`, which takes a frame for a
page if `takes` holds. -/
structure Outcome (f f' : Frames) (p : Fin 4) (takes : Prop) : Prop where
  stage : f'.Stage
  freeCount : f'.freeCount ≤ f.freeCount
  kept : f.Kept → ¬ (takes ∧ (f.withTable p).Crowded p) → f'.Kept
  broken : f.Kept → takes ∧ (f.withTable p).Crowded p → ¬ f'.Ownership

/-- The page of one process in the frame of another one's table breaks the agreement. -/
theorem Owned.supply_broken (h : f.Owned) (hused : ∀ i, f.freelist i = false)
    (hcrowd : f.Crowded p) : ¬ (f.supply p).Ownership := by
  intro hown
  obtain ⟨q, hq⟩ := h.flagged _ (hcrowd.1 (f.roundrobin + 1))
  have hvictim := victim_all_flagged hcrowd.1
  rw [supply_used hused, hvictim] at hown
  have hpages := hown.owner (f.roundrobin + 1) q (hcrowd.1 _) hq
  have hself : ((f.givePage (f.roundrobin + 1) p).turnTo (f.roundrobin + 1 + 1)).pages
      (f.roundrobin + 1) = p.val := Function.update_self _ _ _
  obtain rfl := pages_natCast_inj (hself.symm.trans hpages)
  exact hcrowd.2 (h.table p _ hq).2

theorem Kept.full_of_crowded (h : f.Kept) (hcrowd : f.Crowded p) : f.Full := by
  cases h with
  | fresh h =>
    subst h
    cases hcrowd.1 0
  | starting q k hk h =>
    subst h
    cases hcrowd.1 1
  | full h => exact h

theorem withTable_eq (hp : (f.hardware p).inmem ≠ .file) : f.withTable p = f := if_neg hp

theorem withTable_file (hp : (f.hardware p).inmem = .file) : f.withTable p = f.fetchTable p :=
  if_pos hp

theorem Outcome.same {takes : Prop} (h : f.Stage) (htakes : ¬ takes) : f.Outcome f p takes :=
  ⟨h, le_rfl, fun hkept _ => hkept, fun _ hbad => absurd hbad.1 htakes⟩

theorem Outcome.page {takes : Prop} (h : f.Stage) (hp : f.TableAt p t) (htakes : takes) :
    f.Outcome (f.supply p) p takes := by
  have htable : f.withTable p = f := withTable_eq (by rw [hp.inmem]; decide)
  refine ⟨h.supply hp, supply_freeCount f p, fun hkept hgood => ?_, fun hkept hbad => ?_⟩
  · rw [htable] at hgood
    exact hkept.supply hp fun hcrowd => hgood ⟨htakes, hcrowd⟩
  · rw [htable] at hbad
    exact hkept.owned.supply_broken (hkept.full_of_crowded hbad.2).used hbad.2

theorem Outcome.table {takes : Prop} (h : f.Full) (hp : (f.hardware p).inmem = .file)
    (htakes : ¬ takes) : f.Outcome (f.fetchTable p) p takes := by
  have hfull := (h.fetch hp).1
  refine ⟨.inl (.full hfull), ?_, fun _ _ => .full hfull, fun _ hbad => absurd hbad.1 htakes⟩
  rw [freeCount_eq_zero hfull.used]
  exact Nat.zero_le _

theorem Outcome.both {takes : Prop} (h : f.Full) (hp : (f.hardware p).inmem = .file)
    (htakes : takes) : f.Outcome ((f.fetchTable p).supply p) p takes := by
  obtain ⟨hfull, hflag⟩ := h.fetch hp
  have hcrowd := h.fetch_crowded hp
  have hover := hfull.supply_overrun hflag p
  refine ⟨.inr hover, ?_, fun _ hgood => ?_, fun _ _ => ?_⟩
  · rw [freeCount_eq_zero hover.used]
    exact Nat.zero_le _
  · rw [withTable_file hp] at hgood
    exact absurd ⟨htakes, hcrowd⟩ hgood
  · exact hfull.owned.supply_broken hfull.used hcrowd

end Frames

end Cs3013.Memory
