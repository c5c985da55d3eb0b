import Cs3013.Memory.FrameRuns
import Cs3013.Memory.Removal

/-!
# Which frames `freespace` takes

In a consistent memory without a free frame the two loops give up pages before page tables and
never the page table of the process they work for. The line numbers that earlier evictions have
left in the tables do not lead a search out of the table, so that nothing but the overflow of
linecount stops them.
-/
namespace Cs3013.Memory

open Cs3013.Library.Faulting Cs3013.Library.Transition Machine

/-- The number of frames that hold no page table. -/
def Frames.dataCount (f : Frames) : Nat := frameList.countP fun i => !f.ispagetable i

namespace Machine

variable (s : Machine) (i t d : Fin 4)

/-- Frame `i` is the page table of exactly one process. -/
structure HoldsTable : Prop where
  flag : s.ispagetable i = true
  owner : ∃ p : Fin 4, s.TableAt p i ∧ s.pages i = (p.val : Int) ∧ ∀ q, s.TableAt q i → q = p

/-- Frame `d` is a page of a process with its page table in memory, and in this table the addresses
of pages only occur as the frame numbers of present entries. -/
structure HoldsPage : Prop where
  flag : s.ispagetable d = false
  apart : ∀ q, ¬ s.TableAt q d
  owner : ∃ q t : Fin 4, s.pages d = (q.val : Int) ∧ s.TableAt q t ∧
    (∀ j : Fin 4, (s.byte (16 * t.val + 4 * j.val)).toNat = j.val) ∧
    ∀ o < 16, ∀ c : Fin 4, s.ispagetable c = false →
      (s.byte (16 * t.val + o)).toNat = 16 * c.val →
        o % 4 = 1 ∧ s.byte (16 * t.val + o + 2) = 2

/-- No frame is free, and every frame is a page table or a page. -/
structure Consistent : Prop where
  used : ∀ i, s.freelist i = false
  kind : ∀ i, s.HoldsTable i ∨ s.HoldsPage i

instance : Decidable (s.HoldsTable i) :=
  decidable_of_iff (_ ∧ _) ⟨fun h => ⟨h.1, h.2⟩, fun h => ⟨h.1, h.2⟩⟩

instance : Decidable (s.HoldsPage d) :=
  decidable_of_iff (_ ∧ _ ∧ _) ⟨fun h => ⟨h.1, h.2.1, h.2.2⟩, fun h => ⟨h.1, h.2, h.3⟩⟩

instance : Decidable s.Consistent :=
  decidable_of_iff (_ ∧ _) ⟨fun h => ⟨h.1, h.2⟩, fun h => ⟨h.1, h.2⟩⟩

/-- The search for frame `d` in the table in frame `t` only finds frame numbers, which stand behind
page numbers. -/
structure Searchable : Prop where
  vpn : ∀ j : Fin 4, (s.byte (16 * t.val + 4 * j.val)).toNat < 4
  pfn : ∀ o < 16, (s.byte (16 * t.val + o)).toNat = 16 * d.val → o % 4 = 1

end Machine

/-- What `freespace(n, p)` is meant to do in a memory without a free frame. -/
structure Policy (s u : Machine) (n : Nat) (p : Fin 4) : Prop where
  freed : u.freeCount = n
  pages : (frameList.countP fun i => u.freelist i && !s.ispagetable i) = min n s.dataCount
  last : ∀ i, u.freelist i = true → s.ispagetable i = true →
    ∀ d, s.ispagetable d = false → u.freelist d = true
  own : ∀ i, s.TableAt p i → u.freelist i = false
  swapped : ∀ q i, s.TableAt q i → u.freelist i = true → ∃ (line : Nat) (text : List Char)
    (page : Page), u.hardware q = ⟨line, .file⟩ ∧ u.swapspace = text ++ lineText line page.toList ∧
      ∀ o < 16, o % 2 = 0 → page.byte o = s.byte (16 * i.val + o)
  kept : ∀ q i, s.TableAt q i → u.freelist i = false → u.hardware q = s.hardware q

/-! ## One page -/

section Searches

variable {s : Machine} {p q t t' d d' : Fin 4}

theorem Machine.Searchable.search_lt (h : s.Searchable t d) : s.search t d < 4 := by
  by_cases hex : ∃ o < 16, (s.byte (16 * t.val + o)).toNat = 16 * d.val
  · obtain ⟨o, ho, hat⟩ := hex
    obtain ⟨o', -, hlast⟩ := exists_last ho hat
    have hlt := hlast.lt
    have hmod := h.pfn o' hlt hlast.byte
    have hvpn := h.vpn ⟨o' / 4, by omega⟩
    have hindex : 16 * t.val + o' - 1 = 16 * t.val + 4 * (o' / 4) := by omega
    rw [search_of_last hlast, hindex]
    exact hvpn
  · simp only [not_exists, not_and] at hex
    rw [search_of_none hex]
    decide

theorem Machine.Searchable.evictable (h : s.Searchable t d) (hbound : s.linecount + 1 < 2 ^ 31) :
    s.Evictable t d := by
  have hsearch := h.search_lt
  refine ⟨.inr fun hat => ?_, by omega, hbound⟩
  have := h.pfn 0 (by decide) hat
  omega

/-- The line number that one eviction leaves stands behind a page number as well. -/
theorem Machine.Searchable.evictPage (h : s.Searchable t d) (hne : t ≠ d') {vp : Nat}
    (hvp : vp < 4) : (s.evictPage t' d' vp).Searchable t d := by
  have hval : t.val ≠ d'.val := fun heq => hne (Fin.ext heq)
  have hentry : 16 * t'.val + 4 * vp + 3 < 64 := by omega
  have hbyte := byte_evictPage (s := s) (d := d') hentry
  constructor
  · intro j
    rw [hbyte, if_neg (by omega), if_neg (by omega), if_neg (by omega)]
    exact h.vpn j
  · intro o ho hat
    rw [hbyte, if_neg (by omega)] at hat
    split_ifs at hat with h3 h1
    · have hone : (1 : UInt8).toNat = 1 := rfl
      omega
    · omega
    · exact h.pfn o ho hat

/-- The even bytes of the tables, page numbers and protections, stay. -/
theorem evictPage_even {r : Fin 4} (hne : r ≠ d) {vp : Nat} (hvp : vp < 4) {o : Nat} (ho : o < 16)
    (heven : o % 2 = 0) : (s.evictPage t d vp).byte (16 * r.val + o) = s.byte (16 * r.val + o) := by
  have hval : r.val ≠ d.val := fun heq => hne (Fin.ext heq)
  rw [byte_evictPage (by omega), if_neg (by omega), if_neg (by omega), if_neg (by omega)]

theorem swapOutAt_searchable (hp : s.pages d = q.val) (hq : s.TableAt q t)
    (h : s.Searchable t d) :
    wp (swapOutAt d)
      (fun _ u => s.linecount + 1 < 2 ^ 31 ∧ u = s.evictPage t d (s.search t d))
      (fun e _ => e = .overflow ∧ 2 ^ 31 ≤ s.linecount + 1) s := by
  by_cases hbound : s.linecount + 1 < 2 ^ 31
  · apply (wp_of_ok (swapOutAt_ok hp hq (h.evictable hbound))).mpr
    exact ⟨hbound, rfl⟩
  · have hfirst : (s.byte (16 * t.val)).toNat ≠ 16 * d.val := by
      intro hat
      have := h.pfn 0 (by decide) hat
      omega
    unfold wp
    rw [swapOutAt_overflow hp hq (.inr hfirst) hbound]
    exact ⟨rfl, Nat.le_of_not_lt hbound⟩

theorem Machine.HoldsPage.searchable (h : s.HoldsPage d) : ∃ q t : Fin 4,
    s.pages d = (q.val : Int) ∧ s.TableAt q t ∧ s.Searchable t d := by
  obtain ⟨q, t, hp, hq, hvpn, hpfn⟩ := h.owner
  refine ⟨q, t, hp, hq, fun j => ?_, fun o ho hat => (hpfn o ho d h.flag hat).1⟩
  rw [hvpn]
  exact j.isLt

end Searches

/-! ## What has been freed -/

section Counts

variable {s u m : Machine} {p q d r : Fin 4} {n : Nat}

theorem Machine.Consistent.page (hs : s.Consistent) (hd : s.ispagetable d = false) :
    s.HoldsPage d := by
  rcases hs.kind d with h | h
  · cases h.flag.symm.trans hd
  · exact h

theorem Machine.Consistent.table (hs : s.Consistent) (hr : s.ispagetable r = true) :
    s.HoldsTable r := by
  rcases hs.kind r with h | h
  · exact h
  · cases h.flag.symm.trans hr

theorem Machine.Consistent.ownFlagged (hs : s.Consistent) (p : Fin 4) : s.OwnFlagged p := by
  intro i hi
  rcases hs.kind i with h | h
  · exact h.flag
  · exact absurd hi (h.apart p)

/-- Only pages have been freed. -/
theorem policy_pages (hfreed : u.freeCount = n) (hpages : ∀ i, u.freelist i = true → s.HoldsPage i)
    (hhardware : u.hardware = s.hardware) : Policy s u n p := by
  have hflags : ∀ i ∈ frameList, u.freelist i = true → (!s.ispagetable i) = true := by
    intro i _ hi
    rw [(hpages i hi).flag]
    rfl
  constructor
  · exact hfreed
  · have hsame : (frameList.countP fun i => u.freelist i && !s.ispagetable i) = u.freeCount := by
      apply List.countP_congr
      intro i hi
      rw [Bool.and_eq_true]
      exact ⟨fun h => h.1, fun h => ⟨h, hflags i hi h⟩⟩
    have hle : u.freeCount ≤ s.dataCount := List.countP_mono_left hflags
    rw [hsame, hfreed, Nat.min_eq_left (hfreed ▸ hle)]
  · intro i hi hflag
    cases (hpages i hi).flag.symm.trans hflag
  · intro i hi
    by_contra hfree
    exact (hpages i (by simpa using hfree)).apart p hi
  · intro q i hq hi
    exact absurd hq ((hpages i hi).apart q)
  · intro q _ _ _
    rw [hhardware]

theorem two_freed {d r : Fin 4} (hne : r ≠ d) :
    frameList.countP (Function.update (Function.update (fun _ => false) d true) r true) = 2 ∧
      ∀ i, Function.update (Function.update (fun _ => false) d true) r true i = true →
        i = d ∨ i = r := by
  have key : ∀ d r : Fin 4, r ≠ d →
      frameList.countP (Function.update (Function.update (fun _ => false) d true) r true) = 2 ∧
        ∀ i, Function.update (Function.update (fun _ => false) d true) r true i = true →
          i = d ∨ i = r := by decide
  exact key d r hne

/-- The only page and a page table of another process have been freed. -/
theorem policy_table (hs : s.Consistent) (hd : s.ispagetable d = false)
    (honly : ∀ i, i ≠ d → s.ispagetable i = true) (hr : r ≠ d) (hq : s.TableAt q r)
    (hown : ¬ s.TableAt p r) (hfree : m.freelist = Function.update s.freelist d true)
    (hhardware : m.hardware = s.hardware)
    (heven : ∀ o < 16, o % 2 = 0 → m.byte (16 * r.val + o) = s.byte (16 * r.val + o)) (i : Fin 4) :
    Policy s ((m.swapTable q r).withFrames ((m.swapTable q r).turnTo i)) 2 p := by
  have hused : s.freelist = fun _ => false := funext hs.used
  have hlist : ((m.swapTable q r).withFrames ((m.swapTable q r).turnTo i)).freelist =
      Function.update (Function.update (fun _ => false) d true) r true := by
    rw [← hused, ← hfree]
    rfl
  obtain ⟨htwo, hat⟩ := two_freed hr
  have hpage := (hs.page hd).apart
  constructor
  · rw [Frames.freeCount, hlist]
    exact htwo
  · have key : ∀ (flag : Fin 4 → Bool) (d r : Fin 4), r ≠ d → flag d = false →
        (∀ i, i ≠ d → flag i = true) → (frameList.countP fun i =>
          Function.update (Function.update (fun _ => false) d true) r true i && !flag i) =
            min 2 (frameList.countP fun i => !flag i) := by decide
    rw [hlist]
    exact key s.ispagetable d r hr hd honly
  · intro _ _ _ c hc
    have hcd : c = d := by
      by_contra hne
      cases (honly c hne).symm.trans hc
    rw [hlist, hcd, Function.update_of_ne (Ne.symm hr), Function.update_self]
  · intro i hi
    by_contra hnot
    rw [hlist] at hnot
    rcases hat i (by simpa using hnot) with rfl | rfl
    · exact hpage p hi
    · exact hown hi
  · intro q' i hi hfreed
    rw [hlist] at hfreed
    rcases hat i hfreed with rfl | rfl
    · exact absurd hi (hpage q')
    · obtain ⟨q₀, -, -, honce⟩ := (hs.table (honly i hr)).owner
      obtain rfl : q' = q := (honce q' hi).trans (honce q hq).symm
      refine ⟨m.linecount, m.swapspace, m.page i, Function.update_self _ _ _, rfl, ?_⟩
      intro o ho ho2
      rw [byte_page _ _ ho, heven o ho ho2]
  · intro q' i hi hkept
    have hne : q' ≠ q := by
      intro heq
      subst heq
      rw [Frames.TableAt.frame_inj hi hq, hlist, Function.update_self] at hkept
      cases hkept
    show Function.update m.hardware q _ q' = s.hardware q'
    rw [Function.update_of_ne hne, hhardware]

end Counts

/-! ## The eviction policy -/

section Policies

variable {s : Machine} {p d i : Fin 4} {n : Nat}

/-- The frames after one page has been swapped out. -/
theorem evictPage_freed (hs : s.Consistent) (t vp) : (s.evictPage t d vp).freeCount = 1 ∧
    ∀ i, (s.evictPage t d vp).freelist i = true → i = d := by
  have hlist : (s.evictPage t d vp).freelist = Function.update (fun _ => false) d true := by
    rw [← funext hs.used]
    rfl
  have key : ∀ d : Fin 4, frameList.countP (Function.update (fun _ => false) d true) = 1 ∧
      ∀ i, Function.update (fun _ => false) d true i = true → i = d := by decide
  rw [Frames.freeCount, hlist]
  exact key d

theorem freespace_policy_one (hs : s.Consistent) (hi : s.ispagetable i = false) :
    wp (freespace 1 p.val) (fun _ u => s.linecount + 1 < 2 ^ 31 ∧ Policy s u 1 p)
      (fun e _ => e = .overflow ∧ 2 ^ 31 ≤ s.linecount + 1) s := by
  have hflag : s.ispagetable s.victim = false := s.nextPage_not_flagged _ hi
  obtain ⟨q, t, hq, ht, hsearch⟩ := (hs.page hflag).searchable
  have hcount : s.freeCount + 1 = 1 := by rw [Frames.freeCount_eq_zero hs.used]
  apply wp_congr (freespace_one hcount (hs.ownFlagged p))
  apply wp_imp (swapOutAt_searchable hq ht hsearch)
  intro _ u hu
  obtain ⟨hbound, rfl⟩ := hu
  obtain ⟨hfreed, honly⟩ := evictPage_freed (d := s.victim) hs t (s.search t s.victim)
  refine ⟨hbound, policy_pages hfreed (fun i hi => ?_) rfl⟩
  rw [honly i hi]
  exact hs.page hflag

/-- Both pages are swapped out when there are two. -/
theorem freespace_policy_two (hs : s.Consistent) (hi : s.ispagetable i = false)
    (hne : i ≠ s.victim) :
    wp (freespace 2 p.val) (fun _ u => s.linecount + 2 < 2 ^ 31 ∧ Policy s u 2 p)
      (fun e _ => e = .overflow ∧ 2 ^ 31 ≤ s.linecount + 2) s := by
  have hflag : s.ispagetable s.victim = false := s.nextPage_not_flagged _ hi
  have hflag' : s.ispagetable (s.nextPage (s.victim + 1)) = false := s.nextPage_not_flagged _ hi
  have hne' : s.nextPage (s.victim + 1) ≠ s.victim := s.toFrames.nextPage_succ hi hne
  obtain ⟨q, t, hq, ht, hsearch⟩ := (hs.page hflag).searchable
  obtain ⟨q', t', hq', ht', hsearch'⟩ := (hs.page hflag').searchable
  have htable : t' ≠ s.victim := by
    intro heq
    exact (hs.page hflag).apart q' (heq ▸ ht')
  have hcount : s.freeCount + 2 = 2 := by rw [Frames.freeCount_eq_zero hs.used]
  apply wp_congr (freespace_two hcount (hs.ownFlagged p) rfl hi hne hq ht)
  refine wp_seq (wp_mono (swapOutAt_searchable hq ht hsearch) (fun _ _ h => h) ?_) ?_
  · intro _ _ he
    exact ⟨he.1, by omega⟩
  intro _ u hu
  obtain ⟨hbound, rfl⟩ := hu
  have hpages : (s.evictPage t s.victim (s.search t s.victim)).pages (s.nextPage (s.victim + 1)) =
      (q'.val : Int) := (Function.update_of_ne hne' _ _).trans hq'
  apply wp_mono (swapOutAt_searchable hpages ht' (hsearch'.evictPage htable hsearch.search_lt))
  · intro _ v hv
    obtain ⟨hbound', rfl⟩ := hv
    have hlist : ∀ t₂ vp₂, ((s.evictPage t s.victim (s.search t s.victim)).evictPage t₂
        (s.nextPage (s.victim + 1)) vp₂).freelist = Function.update
          (Function.update (fun _ => false) s.victim true) (s.nextPage (s.victim + 1)) true := by
      intro _ _
      rw [← funext hs.used]
      rfl
    obtain ⟨hfreed, honly⟩ := two_freed hne'
    refine ⟨hbound', policy_pages ?_ (fun j hj => ?_) rfl⟩
    · rw [Frames.freeCount, hlist]
      exact hfreed
    · rw [hlist] at hj
      rcases honly j hj with rfl | rfl
      · exact hs.page hflag
      · exact hs.page hflag'
  · intro _ _ he
    exact ⟨he.1, he.2⟩

/-- The second loop after the only page has gone, once it has come to a table of another process. -/
theorem removeTable_policy {m : Machine} {r : Fin 4} (hs : s.Consistent)
    (hd : s.ispagetable d = false) (honly : ∀ i, i ≠ d → s.ispagetable i = true) (hr : r ≠ d)
    (hown : ¬ s.TableAt p r) (hfree : m.freelist = Function.update s.freelist d true)
    (hhardware : m.hardware = s.hardware) (hlines : m.linecount = s.linecount + 1)
    (heven : ∀ o < 16, o % 2 = 0 → m.byte (16 * r.val + o) = s.byte (16 * r.val + o)) :
    wp (do removePageTable (s.pages r); robin : M Unit)
      (fun _ u => s.linecount + 2 < 2 ^ 31 ∧ Policy s u 2 p)
      (fun e _ => e = .overflow ∧ 2 ^ 31 ≤ s.linecount + 2) m := by
  obtain ⟨q, hq, hpages, -⟩ := (hs.table (honly r hr)).owner
  have hq' : m.TableAt q r := by
    rw [Frames.TableAt, hhardware]
    exact hq
  rw [hpages]
  by_cases hbound : m.linecount + 1 < 2 ^ 31
  · apply wp_step (removePageTable_ok hq' hbound)
    rw [wp_of_ok robin_ok]
    exact ⟨by omega, policy_table hs hd honly hr hq hown hfree hhardware heven _⟩
  · rw [wp_bind]
    apply wp_mono (removePageTable_spec hq')
    · intro _ _ hu
      exact absurd hu.1 hbound
    · intro _ _ he
      exact ⟨he.1, by omega⟩

/-- Only when there is one page does a page table go with it, and it is another process's. -/
theorem freespace_policy_last (hs : s.Consistent) (hd : s.ispagetable d = false)
    (honly : ∀ i, i ≠ d → s.ispagetable i = true) :
    wp (freespace 2 p.val) (fun _ u => s.linecount + 2 < 2 ^ 31 ∧ Policy s u 2 p)
      (fun e _ => e = .overflow ∧ 2 ^ 31 ≤ s.linecount + 2) s := by
  have hsucc : ∀ d : Fin 4, d + 1 ≠ d ∧ d + 1 + 1 ≠ d ∧ d + 1 + 1 ≠ d + 1 := by decide
  obtain ⟨hne1, hne2, hne12⟩ := hsucc d
  obtain ⟨q, t, hq, ht, hsearch⟩ := (hs.page hd).searchable
  have hcount : s.freeCount + 2 = 2 := by rw [Frames.freeCount_eq_zero hs.used]
  have hswap : wp (swapOutAt d) (fun _ u => s.linecount + 1 < 2 ^ 31 ∧
      u = s.evictPage t d (s.search t d)) (fun e _ => e = .overflow ∧ 2 ^ 31 ≤ s.linecount + 2) s :=
    wp_mono (swapOutAt_searchable hq ht hsearch) (fun _ _ h => h) fun _ _ he => ⟨he.1, by omega⟩
  by_cases hself : s.TableAt p (d + 1)
  · apply wp_congr (freespace_own_table hcount (hs.ownFlagged p) hd honly hq ht hself)
    refine wp_seq hswap fun _ u hu => ?_
    obtain ⟨-, rfl⟩ := hu
    apply wp_step robin_ok
    have hown : ¬ s.TableAt p (d + 1 + 1) := fun h => hne12 (h.frame_inj hself)
    exact removeTable_policy hs hd honly hne2 hown rfl rfl rfl fun o ho heven =>
      evictPage_even hne2 hsearch.search_lt ho heven
  · apply wp_congr (freespace_table hcount (hs.ownFlagged p) hd honly hq ht hself)
    refine wp_seq hswap fun _ u hu => ?_
    obtain ⟨-, rfl⟩ := hu
    exact removeTable_policy hs hd honly hne1 hself rfl rfl rfl fun o ho heven =>
      evictPage_even hne1 hsearch.search_lt ho heven

/-- In every consistent memory with a page, from every position of the round robin and for every
process, `freespace` for one or two frames does what it is meant to do, or stops at the overflow
of linecount if there are not enough line numbers left. -/
theorem freespace_policy (hs : s.Consistent) (hdata : ∃ i, s.ispagetable i = false) (p : Fin 4)
    (hn : n = 1 ∨ n = 2) :
    wp (freespace n p.val) (fun _ u => s.linecount + n < 2 ^ 31 ∧ Policy s u n p)
      (fun e _ => e = .overflow ∧ 2 ^ 31 ≤ s.linecount + n) s := by
  obtain ⟨i, hi⟩ := hdata
  rcases hn with rfl | rfl
  · exact freespace_policy_one hs hi
  · by_cases honly : ∀ j, j ≠ s.victim → s.ispagetable j = true
    · exact freespace_policy_last hs (s.nextPage_not_flagged _ hi) honly
    · simp only [not_forall, Bool.not_eq_true] at honly
      obtain ⟨j, hne, hj⟩ := honly
      exact freespace_policy_two hs hj hne

theorem fourProcesses_consistent : ∃ h s, memsim.RunIf (fun _ _ => True) h s ∧
    h.map Event.cmd = fourProcesses.reverse ∧
      (s.Consistent ∧ s.dataCount = 1 ∧ s.ispagetable 3 = false ∧ s.TableAt 3 0 ∧
        s.linecount = 4) :=
  exists_run (fun _ _ => True) [] (by decide +kernel)

/-- The page lies in front of the page table of its process, so that the table behind goes. -/
theorem freespace_policy_four : ∃ h s, memsim.Run h s ∧
    h.map Event.cmd = fourProcesses.reverse ∧ s.Consistent ∧ s.dataCount = 1 ∧ s.TableAt 3 0 ∧
    wp (freespace 2 3) (fun _ u => Policy s u 2 3 ∧ u.freelist 0 = false) (fun _ _ => False) s := by
  obtain ⟨h, s, hrun, hcmds, hs, hone, hdata, htable, hlines⟩ := fourProcesses_consistent
  refine ⟨h, s, hrun, hcmds, hs, hone, htable, ?_⟩
  apply wp_mono (freespace_policy hs ⟨3, hdata⟩ 3 (.inr rfl))
  · intro _ u hu
    exact ⟨hu.2, hu.2.own 0 htable⟩
  · intro _ _ he
    omega

end Policies

end Cs3013.Memory
