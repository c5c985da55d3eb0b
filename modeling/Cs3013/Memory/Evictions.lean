import Cs3013.Memory.Tables

/-!
# Evictions that find their page

`removePage` compares every byte of the owner's table with the address of the frame. Where this
search gives the page that lies there, an eviction only moves that page to the file, and each
routine below ends as intended or stops at the overflow of linecount.
-/
namespace Cs3013.Memory

open Cs3013.Library.Faulting Machine

namespace Machine

/-- The search of `removePage` gives the page that lies in frame `d`. -/
def Found (s : Machine) (d : Fin 4) : Prop :=
  ∀ q t : Fin 4, s.pages d = (q.val : Int) → s.TableAt q t →
    ∃ k : Fin 4, s.search t d = k.val ∧ (s.entry q k).val = 2 ∧
      (s.entry q k).pfn.toNat = 16 * d.val

/-- These frames can be swapped out one after the other, and each search gives the page. -/
def FoundAll : Machine → List (Fin 4) → Prop
  | _, [] => True
  | s, d :: ds => s.Found d ∧ ∀ q t : Fin 4, s.pages d = (q.val : Int) → s.TableAt q t →
      (s.evictPage t d (s.search t d)).FoundAll ds

instance (s : Machine) (d : Fin 4) : Decidable (s.Found d) := by
  unfold Found
  infer_instance

instance decidableFoundAll : (s : Machine) → (ds : List (Fin 4)) → Decidable (s.FoundAll ds)
  | _, [] => inferInstanceAs (Decidable True)
  | _, _ :: ds =>
    have (u : Machine) : Decidable (u.FoundAll ds) := decidableFoundAll u ds
    inferInstanceAs (Decidable (_ ∧ _))

end Machine

/-- The frames whose pages make room for a new page table and a page. -/
def Frames.roomVictims (f : Frames) : List (Fin 4) :=
  if 2 ≤ f.freeCount then []
  else if f.freeCount = 1 ∨ ∀ i, i ≠ f.victim → f.ispagetable i = true then [f.victim]
  else [f.victim, f.nextPage (f.victim + 1)]

/-- The lines for these pages have numbers that fit one byte. -/
def Fits (n : Nat) (ds : List (Fin 4)) : Prop := ds = [] ∨ n + ds.length ≤ 256

instance (n : Nat) (ds : List (Fin 4)) : Decidable (Fits n ds) :=
  inferInstanceAs (Decidable (_ ∨ _))

theorem Fits.one {n : Nat} {d : Fin 4} (h : Fits n [d]) : n < 256 := by
  simp only [Fits, List.cons_ne_nil, List.length_cons, List.length_nil, false_or] at h
  omega

theorem Fits.two {n : Nat} {d d' : Fin 4} (h : Fits n [d, d']) : n + 1 < 256 := by
  simp only [Fits, List.cons_ne_nil, List.length_cons, List.length_nil, false_or] at h
  omega

/-- What a run keeps as long as every eviction finds its page. -/
structure Sound (s : Machine) : Prop where
  kept : s.Kept
  disk : s.DiskOk
  coherent : Coherent s

/-- The messages that report an access to a byte. -/
def Message.Access : Message → Prop
  | .stored _ _ => True
  | .value _ _ => True
  | _ => False

/-- Nothing has been reported on the way. -/
def Quiet (s u : Machine) : Prop := ∀ m : Message, m.Access → m ∈ u.out → m ∈ s.out

/-- Pages and tables have been moved between memory and the file. -/
structure Moved (c : Prop) (s u : Machine) : Prop extends Swapped c s u where
  disk : u.DiskOk
  quiet : Quiet s u

/-- The tables are still right, and if `c` holds every page has its contents. -/
structure Carried (c : Prop) (s u : Machine) : Prop where
  coherent : Coherent u
  contents : c → ∀ p k o, o < 16 → u.pageByte p k o = s.pageByte p k o
  disk : u.DiskOk
  quiet : Quiet s u

/-- The program ends with `Q`, or linecount overflows. -/
abbrev Ends {α : Type} (m : M α) (s : Machine) (Q : α → Machine → Prop) : Prop :=
  wp m Q (fun e _ => e = .overflow) s

section Rules

variable {c c' : Prop} {s u v : Machine}

theorem Quiet.trans (h : Quiet s u) (h' : Quiet u v) : Quiet s v :=
  fun m hm hv => h m hm (h' m hm hv)

theorem Quiet.of_out {l : List Message} (h : u.out = s.out ++ l) (hl : ∀ m ∈ l, ¬ m.Access) :
    Quiet s u := by
  intro m hm hu
  rw [h, List.mem_append] at hu
  exact hu.resolve_right fun hin => hl m hin hm

theorem Quiet.same (h : u.out = s.out) : Quiet s u := by
  intro m _ hu
  rwa [← h]

theorem Moved.trans (h : Moved c s u) (h' : Moved c' u v) : Moved (c ∧ c') s v :=
  ⟨h.toSwapped.trans h'.toSwapped, h'.disk, h.quiet.trans h'.quiet⟩

theorem Moved.mono (h : Moved c s u) (hc : c' → c) : Moved c' s u :=
  ⟨h.toSwapped.mono hc, h.disk, h.quiet⟩

theorem Moved.carried (h : Moved c s u) : Carried c s u :=
  ⟨h.coherent, h.contents, h.disk, h.quiet⟩

theorem Moved.refl (hdisk : s.DiskOk) (h : Coherent s) : Moved c s s :=
  ⟨(Swapped.refl (c := c) h), hdisk, .same rfl⟩

theorem Coherent.printed (h : Coherent s) (m : Message) : Coherent (s.printed m) :=
  ⟨h.entries, h.vpn, h.free⟩

/-- A message that reports no access. -/
theorem Moved.printed (h : Moved c s u) {m : Message} (hm : ¬ m.Access) :
    Moved c s (u.printed m) := by
  have hturn : Swapped True u (u.printed m) := .of_turn h.coherent u.roundrobin rfl (fun _ => rfl)
    rfl rfl
  refine ⟨(h.toSwapped.trans hturn).mono fun hc => ⟨hc, trivial⟩, h.disk.congr rfl rfl rfl, ?_⟩
  apply h.quiet.trans
  apply Quiet.of_out rfl
  simpa using hm

end Rules

/-! ## One page -/

section Evictions

variable {s : Machine} {p q t d i : Fin 4}

/-- The page of a data frame goes to the next line. -/
theorem swapOutAt_ends (howned : s.Owned) (hdisk : s.DiskOk) (h : Coherent s)
    (hd : s.ispagetable d = false) (hd0 : d ≠ 0) (hp : s.pages d = (q.val : Int))
    (hq : s.TableAt q t) (hfound : s.Found d) :
    Ends (swapOutAt d) s fun _ u =>
      u = s.evictPage t d (s.search t d) ∧ Moved (s.linecount < 256) s u := by
  obtain ⟨k, hk, hval, hpfn⟩ := hfound q t hp hq
  -- the first byte of a table is 0, and frame 0 holds a table
  have hsearch : 0 < t.val ∨ (s.byte (16 * t.val)).toNat ≠ 16 * d.val := by
    right
    have hzero := h.vpn q 0 (by rw [hq.inmem]; decide)
    rw [tableByte_memory hq] at hzero
    have hbyte : (s.byte (16 * t.val)).toNat = 0 := congrArg UInt8.toNat hzero
    have hpos : d.val ≠ 0 := fun hv => hd0 (Fin.ext hv)
    omega
  by_cases hbound : s.linecount + 1 < 2 ^ 31
  · apply (wp_of_ok (swapOutAt_ok hp hq ⟨hsearch, by omega, hbound⟩)).mpr
    have hswap := evictPage_swapped howned hdisk hbound hq hd h hval hpfn
    rw [← hk] at hswap
    refine ⟨rfl, hswap, (evicted_disk hdisk hbound d).congr rfl rfl rfl, ?_⟩
    apply Quiet.of_out (l := [.frameSwapped d.val (s.linecount + 1)]) rfl
    simp [Message.Access]
  · unfold Ends wp
    rw [swapOutAt_overflow hp hq hsearch hbound]

theorem Frames.Owned.evict {f : Frames} (h : f.Owned) (hd : f.ispagetable d = false) :
    (f.evict d).Owned :=
  (h.dropPage hd).turnTo _

/-- The frame of a table is never frame 0 when a page is looked for. -/
theorem Frames.Kept.data_ne_zero {f : Frames} (h : f.Kept) (hq : f.TableAt q t)
    (hd : f.ispagetable d = false) : d ≠ 0 := by
  intro heq
  subst heq
  rw [h.based hq] at hd
  cases hd

/-- `freespace(1, pid)` with no free frame and a page to swap out. -/
theorem freespace_ends (hs : Sound s) (hused : ∀ i, s.freelist i = false)
    (hflag : s.ispagetable s.victim = false) (hfound : s.Found s.victim) (p : Fin 4) :
    Ends (freespace 1 p.val) s fun _ u =>
      u.toFrames = s.toFrames.evict s.victim ∧ Moved (s.linecount < 256) s u := by
  have howned := hs.kept.owned
  obtain ⟨q, t, hq, ht⟩ := howned.owner_of_used (hused s.victim)
  have hcount : s.freeCount + 1 = 1 := by rw [Frames.freeCount_eq_zero hused]
  apply wp_congr (freespace_one hcount (howned.ownFlagged p))
  apply wp_imp (swapOutAt_ends howned hs.disk hs.coherent hflag (hs.kept.data_ne_zero ht hflag)
    hq ht hfound)
  intro _ u hu
  obtain ⟨rfl, hmoved⟩ := hu
  exact ⟨rfl, hmoved⟩

/-- A frame is free for a page of `p`. -/
structure Room (c : Prop) (s v : Machine) (p t i : Fin 4) : Prop where
  moved : Moved c s v
  owned : v.Owned
  table : v.TableAt p t
  free : frameList.find? v.freelist = some i

theorem Room.there (hs : Sound s) (hp : s.TableAt p t) {c : Prop}
    (hi : frameList.find? s.freelist = some i) : Room c s s p t i :=
  ⟨.refl hs.disk hs.coherent, hs.kept.owned, hp, hi⟩

theorem Room.made {u : Machine} {c : Prop} (hs : Sound s) (hp : s.TableAt p t)
    (hused : ∀ i, s.freelist i = false) (hflag : s.ispagetable s.victim = false)
    (hu : u.toFrames = s.toFrames.evict s.victim) (hmoved : Moved c s u) :
    Room c s u p t s.victim := by
  refine ⟨hmoved, ?_, ?_, ?_⟩
  · rw [hu]
    exact hs.kept.owned.evict hflag
  · rw [hu]
    exact hp
  · rw [hu]
    exact Frames.find?_evict hused

/-! ## Room for a new process -/

theorem Moved.turn {c : Prop} (hdisk : s.DiskOk) (h : Coherent s) (r : Fin 4) :
    Moved c s (s.withFrames (s.toFrames.turnTo r)) := by
  have hturn : Swapped True s (s.withFrames (s.toFrames.turnTo r)) :=
    .of_turn h r rfl (fun _ => rfl) rfl rfl
  exact ⟨hturn.mono fun _ => trivial, hdisk.congr rfl rfl rfl, .same rfl⟩

/-- One page makes room. -/
theorem roomFor_one {c : Prop} (hs : Sound s) (hcount : s.freeCount = 1)
    (hflag : s.ispagetable s.victim = false) (hq : s.pages s.victim = (q.val : Int))
    (ht : s.TableAt q t) (hfound : s.Found s.victim) (hc : c → s.linecount < 256) :
    Ends (freespace 2 p.val) s fun _ u => Moved c s u ∧ u.hardware p = s.hardware p := by
  have howned := hs.kept.owned
  apply wp_congr (freespace_one (by rw [hcount]) (howned.ownFlagged p))
  apply wp_imp (swapOutAt_ends howned hs.disk hs.coherent hflag (hs.kept.data_ne_zero ht hflag)
    hq ht hfound)
  intro _ u hu
  obtain ⟨rfl, hmoved⟩ := hu
  exact ⟨hmoved.mono hc, rfl⟩

/-- One page makes room together with the page table behind it. -/
theorem roomFor_table {c : Prop} (hs : Sound s) (hfull : s.Full)
    (hin : (s.hardware p).inmem = .unset) (hflag : s.ispagetable s.victim = false)
    (honly : ∀ i, i ≠ s.victim → s.ispagetable i = true) (hfound : s.Found s.victim)
    (hc : c → s.linecount < 256) :
    Ends (freespace 2 p.val) s fun _ u => Moved c s u ∧ u.hardware p = s.hardware p := by
  have howned := hs.kept.owned
  have hsucc : ∀ d : Fin 4, d + 1 ≠ d := by decide
  obtain ⟨q, t, hq, ht⟩ := howned.owner_of_used (hfull.used s.victim)
  obtain ⟨r, hr⟩ := howned.flagged _ (honly _ (hsucc s.victim))
  have hcount : s.freeCount + 2 = 2 := by rw [Frames.freeCount_eq_zero hfull.used]
  have hother : s.hardware p ≠ ⟨16 * (s.victim + 1 : Fin 4).val, .memory⟩ := by
    intro hself
    cases (congrArg Hp.inmem hself).symm.trans hin
  apply wp_congr (freespace_table hcount (howned.ownFlagged p) hflag honly hq ht hother)
  rw [(howned.table r _ hr).2]
  refine wp_seq (swapOutAt_ends howned hs.disk hs.coherent hflag (hs.kept.data_ne_zero ht hflag)
    hq ht hfound) fun _ u hu => ?_
  obtain ⟨rfl, hmoved⟩ := hu
  have howned' : (s.evictPage t s.victim (s.search t s.victim)).Owned := howned.evict hflag
  have hr' : (s.evictPage t s.victim (s.search t s.victim)).TableAt r (s.victim + 1) := hr
  rw [wp_bind]
  apply wp_mono (removePageTable_spec hr')
  · intro _ v hv
    obtain ⟨hbound, rfl⟩ := hv
    rw [wp_of_ok robin_ok]
    have hswap := swapTable_swapped howned' hmoved.disk hmoved.coherent hbound hr'
    have htable : Moved True _ _ := ⟨hswap, swapTable_disk hmoved.disk hbound,
      .of_out (l := [.tableSwapped r.val]) rfl (by simp [Message.Access])⟩
    have hturn := Moved.turn (c := True) htable.disk htable.coherent (s.victim + 1 + 1)
    have hpr : p ≠ r := by
      intro heq
      subst heq
      cases hr.inmem.symm.trans hin
    exact ⟨((hmoved.trans htable).trans hturn).mono fun h => ⟨⟨hc h, trivial⟩, trivial⟩,
      Function.update_of_ne hpr _ _⟩
  · intro _ _ he
    exact he.1

/-- Two pages make room. -/
theorem roomFor_two {c : Prop} (hs : Sound s) (hfull : s.Full) (hi : s.ispagetable i = false)
    (hne : i ≠ s.victim) (hfound : s.FoundAll [s.victim, s.nextPage (s.victim + 1)])
    (hc : c → s.linecount + 1 < 256) :
    Ends (freespace 2 p.val) s fun _ u => Moved c s u ∧ u.hardware p = s.hardware p := by
  have howned := hs.kept.owned
  have hflag := Frames.victim_not_flagged hi
  have hflag' : s.ispagetable (s.nextPage (s.victim + 1)) = false := s.nextPage_not_flagged _ hi
  have hne' := s.toFrames.nextPage_succ hi hne
  obtain ⟨q, t, hq, ht⟩ := howned.owner_of_used (hfull.used s.victim)
  obtain ⟨r, t', hr, ht'⟩ := howned.owner_of_used (hfull.used (s.nextPage (s.victim + 1)))
  have hcount : s.freeCount + 2 = 2 := by rw [Frames.freeCount_eq_zero hfull.used]
  apply wp_congr (freespace_two hcount (howned.ownFlagged p) rfl hi hne hq ht)
  refine wp_seq (swapOutAt_ends howned hs.disk hs.coherent hflag (hs.kept.data_ne_zero ht hflag)
    hq ht hfound.1) fun _ u hu => ?_
  obtain ⟨hu, hmoved⟩ := hu
  have hfound' : u.Found (s.nextPage (s.victim + 1)) := by
    rw [hu]
    exact (hfound.2 q t hq ht).1
  have hframes : u.toFrames = s.toFrames.evict s.victim := by rw [hu]; rfl
  have hlines : u.linecount = s.linecount + 1 := by rw [hu]; rfl
  have howned' : u.Owned := by
    rw [hframes]
    exact howned.evict hflag
  have hpages : u.pages (s.nextPage (s.victim + 1)) = (r.val : Int) := by
    rw [hframes]
    exact (Function.update_of_ne hne' _ _).trans hr
  have htable : u.TableAt r t' := by
    rw [hframes]
    exact ht'
  have hdata : u.ispagetable (s.nextPage (s.victim + 1)) = false := by
    rw [hframes]
    exact hflag'
  apply wp_imp (swapOutAt_ends howned' hmoved.disk hmoved.coherent hdata
    (hs.kept.data_ne_zero ht' hflag') hpages htable hfound')
  intro _ v hv
  obtain ⟨rfl, hmoved'⟩ := hv
  rw [hlines] at hmoved'
  refine ⟨(hmoved.trans hmoved').mono fun h => ⟨by have := hc h; omega, hc h⟩, ?_⟩
  exact congrArg (fun f => f.hardware p) hframes

/-- `freespace(2, pid)` for a process without a page table. -/
theorem roomFor_ends (hs : Sound s) (hin : (s.hardware p).inmem = .unset)
    (hfound : s.FoundAll s.roomVictims) :
    Ends (freespace 2 p.val) s fun _ u =>
      Moved (Fits s.linecount s.roomVictims) s u ∧ u.hardware p = s.hardware p := by
  by_cases hcount : 2 ≤ s.freeCount
  · rw [Ends, wp_of_ok (freespace_none hcount)]
    exact ⟨.turn hs.disk hs.coherent _, rfl⟩
  rw [Frames.roomVictims, if_neg hcount] at hfound ⊢
  cases hs.kept with
  | fresh h =>
    rw [h] at hcount
    exact absurd (by decide) hcount
  | starting q k hk h =>
    have hfree : s.freeCount = 4 - k.val := by
      rw [h]
      exact Frames.starting_freeCount q k
    rcases hk with rfl | rfl
    · rw [hfree] at hcount
      exact absurd (by decide) hcount
    have hone : s.freeCount = 1 := hfree
    rw [if_pos (.inl hone)] at hfound ⊢
    have hvictim : s.victim = 2 := by rw [h]; rfl
    have hflag : s.ispagetable s.victim = false := by rw [hvictim, h]; rfl
    have hpages : s.pages s.victim = (q.val : Int) := by rw [hvictim, h]; rfl
    have htable : s.TableAt q 0 := by
      rw [h]
      exact Frames.starting_tableAt q 3
    exact roomFor_one hs hone hflag hpages htable hfound.1 Fits.one
  | full h =>
    obtain ⟨i, hi⟩ := h.owned.exists_not_flagged (Frames.not_memory_of_unset hin)
    have hzero : s.freeCount = 0 := Frames.freeCount_eq_zero h.used
    by_cases honly : ∀ i, i ≠ s.victim → s.ispagetable i = true
    · rw [if_pos (.inr honly)] at hfound ⊢
      exact roomFor_table hs h hin (Frames.victim_not_flagged hi) honly hfound.1 Fits.one
    · have hnot : ¬ (s.freeCount = 1 ∨ ∀ i, i ≠ s.victim → s.ispagetable i = true) := by
        rw [hzero]
        simpa using honly
      rw [if_neg hnot] at hfound ⊢
      simp only [not_forall, Bool.not_eq_true] at honly
      obtain ⟨j, hj, hjflag⟩ := honly
      exact roomFor_two hs h hjflag hj hfound Fits.two

end Evictions

end Cs3013.Memory
