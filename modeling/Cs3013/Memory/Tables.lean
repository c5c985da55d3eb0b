import Cs3013.Memory.Supply

/-!
# The page tables

An entry is the four bytes that a page table holds for a page, wherever the table is. While the
tables are `Coherent` with the frames, a present entry names a frame of its process and an
entry on disk a line of the file. Each move of a page or of a table rewrites at most one entry.
-/
namespace Cs3013.Memory

open Cs3013.Library.Faulting Machine

/-- A page table entry without its first byte: frame base or line number, protection,
valid/present. -/
structure Entry where
  pfn : UInt8
  prot : UInt8
  val : UInt8

/-- The entries of all processes, by process and page. -/
abbrev Entries := Fin 4 → Fin 4 → Entry

namespace Entries

def set (e : Entries) (p k : Fin 4) (x : Entry) : Entries :=
  fun q j => if q = p ∧ j = k then x else e q j

variable {e : Entries} {p q j k : Fin 4} {x : Entry}

theorem set_self : e.set p k x p k = x := if_pos ⟨rfl, rfl⟩

theorem set_other (h : ¬ (q = p ∧ j = k)) : e.set p k x q j = e q j := if_neg h

/-- What holds of the new entry and of all others holds of every entry. -/
theorem forall_set {P : Fin 4 → Fin 4 → Entry → Prop} (hx : P p k x)
    (h : ∀ q j, ¬ (q = p ∧ j = k) → P q j (e q j)) (q j : Fin 4) : P q j (e.set p k x q j) := by
  by_cases hqj : q = p ∧ j = k
  · obtain ⟨rfl, rfl⟩ := hqj
    rw [set_self]
    exact hx
  · rw [set_other hqj]
    exact h q j hqj

/-- The entries agree with the frames, and lines of the file lie below `lines`. -/
structure Ok (e : Entries) (f : Frames) (lines : Nat) : Prop where
  range : ∀ p k, (e p k).val = 0 ∨ (e p k).val = 1 ∨ (e p k).val = 2
  absent : ∀ p k, (e p k).val = 0 → (e p k).prot = 0
  onDisk : ∀ p k, (e p k).val = 1 → (e p k).pfn.toNat < lines
  present : ∀ p k, (e p k).val = 2 → ∃ d : Fin 4, (e p k).pfn.toNat = 16 * d.val ∧
    f.pages d = (p.val : Int) ∧ f.ispagetable d = false
  distinct : ∀ p k j, (e p k).val = 2 → (e p j).val = 2 → (e p k).pfn = (e p j).pfn → k = j

namespace Ok

variable {f f' : Frames} {lines lines' : Nat} {d i : Fin 4} (h : e.Ok f lines)

include h

theorem present_at (hval : (e p k).val = 2) (hpfn : (e p k).pfn.toNat = 16 * d.val) :
    f.pages d = (p.val : Int) ∧ f.ispagetable d = false := by
  obtain ⟨d', hd', hpages⟩ := h.present p k hval
  obtain rfl : d = d' := by omega
  exact hpages

/-- Only the data frames in use matter. -/
theorem frames (hkeep : ∀ d, f.pages d ≠ -1 → f.ispagetable d = false →
    f'.pages d = f.pages d ∧ f'.ispagetable d = false) (hlines : lines ≤ lines') :
    e.Ok f' lines' := by
  refine ⟨h.range, h.absent, ?_, ?_, h.distinct⟩
  · intro p k hval
    exact lt_of_lt_of_le (h.onDisk p k hval) hlines
  · intro p k hval
    obtain ⟨d, hpfn, hpages, hflag⟩ := h.present p k hval
    obtain ⟨hpages', hflag'⟩ := hkeep d (by rw [hpages]; exact Frames.pages_ne_none p) hflag
    exact ⟨d, hpfn, hpages'.trans hpages, hflag'⟩

/-- The page in frame `d` goes to line `lines`, whose number may lose its upper digits. -/
theorem swapOut (hval : (e q k).val = 2) (hpfn : (e q k).pfn.toNat = 16 * d.val) :
    (e.set q k ⟨UInt8.ofNat lines, (e q k).prot, 1⟩).Ok (f.dropPage d) (lines + 1) := by
  have hother : ∀ p j, ¬ (p = q ∧ j = k) → (e p j).val = 2 →
      (e p j).pfn.toNat ≠ 16 * d.val := by
    intro p j hne hval' hpfn'
    have hp := (h.present_at hval' hpfn').1
    rw [(h.present_at hval hpfn).1] at hp
    obtain rfl := Frames.pages_natCast_inj hp
    have hsame : (e q j).pfn = (e q k).pfn := UInt8.toNat_inj.mp (hpfn'.trans hpfn.symm)
    exact hne ⟨rfl, h.distinct q j k hval' hval hsame⟩
  constructor
  · exact forall_set (P := fun _ _ y => y.val = 0 ∨ y.val = 1 ∨ y.val = 2) (.inr (.inl rfl))
      fun p j _ => h.range p j
  · exact forall_set (P := fun _ _ y => y.val = 0 → y.prot = 0) (fun hzero => by cases hzero)
      fun p j _ => h.absent p j
  · apply forall_set (P := fun _ _ y => y.val = 1 → y.pfn.toNat < lines + 1)
    · intro _
      rw [UInt8.toNat_ofNat']
      exact Nat.lt_succ_of_le (Nat.mod_le _ _)
    · intro p j _ hval'
      exact Nat.lt_succ_of_lt (h.onDisk p j hval')
  · apply forall_set (P := fun p _ y => y.val = 2 → ∃ d' : Fin 4, y.pfn.toNat = 16 * d'.val ∧
      (f.dropPage d).pages d' = (p.val : Int) ∧ f.ispagetable d' = false)
    · intro hval'
      cases hval'
    · intro p j hpj hval'
      obtain ⟨d', hpfn', hpages, hflag⟩ := h.present p j hval'
      have hne : d' ≠ d := by
        intro heq
        subst heq
        exact hother p j hpj hval' hpfn'
      exact ⟨d', hpfn', (Function.update_of_ne hne _ _).trans hpages, hflag⟩
  · intro p j j' hval₁ hval₂
    by_cases hj : p = q ∧ j = k
    · obtain ⟨rfl, rfl⟩ := hj
      rw [set_self] at hval₁
      cases hval₁
    · by_cases hj' : p = q ∧ j' = k
      · obtain ⟨rfl, rfl⟩ := hj'
        rw [set_self] at hval₂
        cases hval₂
      · rw [set_other hj] at hval₁ ⊢
        rw [set_other hj'] at hval₂ ⊢
        exact h.distinct p j j' hval₁ hval₂

/-- Page `k` of `p` comes into the free frame `i`, with any protection. -/
theorem give (hpages : f.pages i = -1) (hflag : f.ispagetable i = false) (prot : UInt8) :
    (e.set p k ⟨UInt8.ofNat (16 * i.val), prot, 2⟩).Ok (f.givePage i p) lines := by
  have hbase : (UInt8.ofNat (16 * i.val)).toNat = 16 * i.val := by
    rw [UInt8.toNat_ofNat']
    omega
  have hother : ∀ q j, (e q j).val = 2 → (e q j).pfn.toNat ≠ 16 * i.val := by
    intro q j hval hpfn
    have hq := (h.present_at hval hpfn).1
    rw [hpages] at hq
    exact Frames.pages_ne_none q hq.symm
  constructor
  · exact forall_set (P := fun _ _ y => y.val = 0 ∨ y.val = 1 ∨ y.val = 2) (.inr (.inr rfl))
      fun q j _ => h.range q j
  · exact forall_set (P := fun _ _ y => y.val = 0 → y.prot = 0) (fun hzero => by cases hzero)
      fun q j _ => h.absent q j
  · exact forall_set (P := fun _ _ y => y.val = 1 → y.pfn.toNat < lines) (fun hone => by cases hone)
      fun q j _ => h.onDisk q j
  · apply forall_set (P := fun q _ y => y.val = 2 → ∃ d : Fin 4, y.pfn.toNat = 16 * d.val ∧
      (f.givePage i p).pages d = (q.val : Int) ∧ f.ispagetable d = false)
    · intro _
      exact ⟨i, hbase, Function.update_self _ _ _, hflag⟩
    · intro q j _ hval
      obtain ⟨d, hpfn, hd, hdflag⟩ := h.present q j hval
      have hne : d ≠ i := by
        intro heq
        subst heq
        exact hother q j hval hpfn
      exact ⟨d, hpfn, (Function.update_of_ne hne _ _).trans hd, hdflag⟩
  · intro q j j' hval hval'
    by_cases hj : q = p ∧ j = k
    · obtain ⟨rfl, rfl⟩ := hj
      by_cases hj' : j' = j
      · intro _
        exact hj'.symm
      · rw [set_other (fun h => hj' h.2)] at hval' ⊢
        rw [set_self]
        intro hpfn
        exact absurd (hpfn ▸ hbase) (hother q j' hval')
    · by_cases hj' : q = p ∧ j' = k
      · obtain ⟨rfl, rfl⟩ := hj'
        rw [set_other hj] at hval ⊢
        rw [set_self]
        intro hpfn
        exact absurd (hpfn ▸ hbase) (hother q j hval)
      · rw [set_other hj] at hval ⊢
        rw [set_other hj'] at hval' ⊢
        exact h.distinct q j j' hval hval'

/-- The protection of a page that has been mapped may change. -/
theorem protect (hval : (e p k).val ≠ 0) (prot : UInt8) :
    (e.set p k ⟨(e p k).pfn, prot, (e p k).val⟩).Ok f lines := by
  have hpfn : ∀ q j, (e.set p k ⟨(e p k).pfn, prot, (e p k).val⟩ q j).pfn = (e q j).pfn :=
    forall_set (P := fun q j y => y.pfn = (e q j).pfn) rfl fun _ _ _ => rfl
  have hvals : ∀ q j, (e.set p k ⟨(e p k).pfn, prot, (e p k).val⟩ q j).val = (e q j).val :=
    forall_set (P := fun q j y => y.val = (e q j).val) rfl fun _ _ _ => rfl
  constructor
  · intro q j
    rw [hvals]
    exact h.range q j
  · exact forall_set (P := fun _ _ y => y.val = 0 → y.prot = 0) (fun hzero => absurd hzero hval)
      fun q j _ => h.absent q j
  · intro q j
    rw [hvals, hpfn]
    exact h.onDisk q j
  · intro q j
    rw [hvals, hpfn]
    exact h.present q j
  · intro q j j'
    rw [hvals, hvals, hpfn, hpfn]
    exact h.distinct q j j'

end Ok

end Entries

namespace Machine

/-- The entries as the page tables hold them, in memory or in the file. -/
def entry (s : Machine) : Entries := fun p k =>
  ⟨s.tableByte p (4 * k.val + 1), s.tableByte p (4 * k.val + 2), s.tableByte p (4 * k.val + 3)⟩

/-- Byte `o` of page `k` of `p`, wherever the page is. -/
def pageByte (s : Machine) (p k : Fin 4) (o : Nat) : UInt8 :=
  if (s.entry p k).val = 2 then s.byte ((s.entry p k).pfn.toNat + o)
  else if (s.entry p k).val = 1 then (s.line (s.entry p k).pfn.toNat).byte o
  else 0

end Machine

/-- The page tables fit the frames and the file, and free frames are cleared. -/
structure Coherent (s : Machine) : Prop where
  entries : s.entry.Ok s.toFrames s.linecount
  vpn : ∀ p (k : Fin 4), (s.hardware p).inmem ≠ .unset →
    s.tableByte p (4 * k.val) = UInt8.ofNat k.val
  free : ∀ d, s.freelist d = true → ∀ o < 16, s.byte (16 * d.val + o) = 0

/-! ## Bytes of the tables -/

section Bytes

variable {s u : Machine} {p q t d : Fin 4} {o : Nat}

theorem tableByte_congr (howned : s.Owned) (hhw : u.hardware p = s.hardware p)
    (hmem : ∀ t, s.TableAt p t → u.byte (16 * t.val + o) = s.byte (16 * t.val + o))
    (hline : (s.hardware p).inmem = .file →
      u.line (s.hardware p).address.toNat = s.line (s.hardware p).address.toNat) :
    u.tableByte p o = s.tableByte p o := by
  cases hin : (s.hardware p).inmem with
  | memory =>
    obtain ⟨t, ht⟩ := howned.resident p hin
    rw [tableByte_memory ht, tableByte_memory (s := u) (t := t) (hhw.trans ht), hmem t ht]
  | file =>
    have hhp : s.hardware p = ⟨(s.hardware p).address, .file⟩ := by
      rw [← hin]
    have hl := hline hin
    rw [tableByte, tableByte, hhw, hhp]
    dsimp only
    rw [hl]
  | unset =>
    rw [tableByte_unset hin, tableByte_unset (by rw [hhw]; exact hin)]

/-- The entries are bytes of the tables. -/
theorem entry_congr (h : ∀ p o, o < 16 → u.tableByte p o = s.tableByte p o) :
    u.entry = s.entry := by
  funext p k
  simp only [Machine.entry]
  rw [h p _ (by omega), h p _ (by omega), h p _ (by omega)]

theorem tableByte_appendFrame (howned : s.Owned) (hdisk : s.DiskOk)
    (hbound : s.linecount + 1 < 2 ^ 31) (d : Fin 4) :
    (s.appendFrame d).tableByte p o = s.tableByte p o := by
  refine tableByte_congr howned rfl (fun _ _ => rfl) fun hin => ?_
  obtain ⟨n, hn, hhp⟩ := hdisk.line p hin
  rw [hhp]
  exact (appendFrame_grows hdisk.file hbound d).lines n hn

/-- Bytes of a frame without a table do not matter. -/
theorem tableByte_writePage (howned : s.Owned) (hd : ∀ q, ¬ s.TableAt q d) (page : Page)
    (ho : o < 16) : (s.writePage d page).tableByte p o = s.tableByte p o := by
  refine tableByte_congr howned rfl (fun t ht => ?_) fun _ => rfl
  have hne : t ≠ d := ht.ne hd
  rw [byte_writePage, if_neg (by omega)]

theorem tableByte_write (howned : s.Owned) (hq : s.TableAt q t) {a j : Nat}
    (ha : a = 16 * t.val + j) (hj : j < 16) (v : UInt8) (ho : o < 16) :
    (s.write a v).tableByte p o = if p = q ∧ o = j then v else s.tableByte p o := by
  have ha64 : a < 64 := by omega
  by_cases hpo : p = q ∧ o = j
  · obtain ⟨rfl, rfl⟩ := hpo
    rw [if_pos ⟨rfl, rfl⟩, tableByte_memory (s := s.write a v) (t := t) hq, byte_write _ ha64,
      if_pos ha.symm]
  · rw [if_neg hpo]
    refine tableByte_congr howned rfl (fun t' ht' => ?_) fun _ => rfl
    rw [byte_write _ ha64, if_neg]
    intro heq
    obtain rfl : t' = t := by omega
    exact hpo ⟨howned.process_inj ht' hq, by omega⟩

theorem tableByte_write_data (howned : s.Owned) (hd : ∀ q, ¬ s.TableAt q d) {a j : Nat}
    (ha : a = 16 * d.val + j) (hj : j < 16) (v : UInt8) (ho : o < 16) :
    (s.write a v).tableByte p o = s.tableByte p o := by
  refine tableByte_congr howned rfl (fun t ht => ?_) fun _ => rfl
  have hne : t ≠ d := ht.ne hd
  rw [byte_write _ (by omega), if_neg (by omega)]

/-- One entry is rewritten and all other bytes of the tables are as before. -/
structure Rewrites (s u : Machine) (q k : Fin 4) (x : Entry) : Prop where
  entry : u.entry = s.entry.set q k x
  vpn : ∀ p (j : Fin 4), u.tableByte p (4 * j.val) = s.tableByte p (4 * j.val)

/-- A byte outside of the entry is none of its three bytes. -/
theorem not_entry_byte {α : Type} {p q : α} {k : Fin 4} {o : Nat}
    (hne : ¬ (p = q ∧ o / 4 = k.val ∧ o % 4 ≠ 0)) (j : Nat) (hpos : 0 < j) (hj : j < 4) :
    ¬ (p = q ∧ o = 4 * k.val + j) := by
  intro hboth
  obtain ⟨hp, ho⟩ := hboth
  exact hne ⟨hp, by omega, by omega⟩

theorem rewrites_of_bytes {k : Fin 4} {x : Entry}
    (hother : ∀ p o, o < 16 → ¬ (p = q ∧ o / 4 = k.val ∧ o % 4 ≠ 0) →
      u.tableByte p o = s.tableByte p o)
    (hpfn : u.tableByte q (4 * k.val + 1) = x.pfn)
    (hprot : u.tableByte q (4 * k.val + 2) = x.prot)
    (hval : u.tableByte q (4 * k.val + 3) = x.val) : Rewrites s u q k x where
  entry := by
    funext p j
    by_cases hpj : p = q ∧ j = k
    · obtain ⟨rfl, rfl⟩ := hpj
      rw [Entries.set_self, Machine.entry, hpfn, hprot, hval]
    · have hne : ∀ m, 0 < m → m < 4 →
          u.tableByte p (4 * j.val + m) = s.tableByte p (4 * j.val + m) := by
        intro m _ hm
        apply hother p _ (by omega)
        intro hboth
        obtain ⟨hp, hk, -⟩ := hboth
        exact hpj ⟨hp, by omega⟩
      rw [Entries.set_other hpj, Machine.entry, Machine.entry, hne 1 (by decide) (by decide),
        hne 2 (by decide) (by decide), hne 3 (by decide) (by decide)]
  vpn p j := hother p _ (by omega) fun h => h.2.2 (by omega)

end Bytes

/-! ## A page swapped out -/

theorem pageByte_congr {s u : Machine} {p j : Fin 4} {o : Nat} (he : u.entry p j = s.entry p j)
    (hbyte : (s.entry p j).val = 2 →
      u.byte ((s.entry p j).pfn.toNat + o) = s.byte ((s.entry p j).pfn.toNat + o))
    (hline : (s.entry p j).val = 1 →
      u.line (s.entry p j).pfn.toNat = s.line (s.entry p j).pfn.toNat) :
    u.pageByte p j o = s.pageByte p j o := by
  rw [pageByte, pageByte, he]
  by_cases h2 : (s.entry p j).val = 2
  · rw [if_pos h2, if_pos h2, hbyte h2]
  · rw [if_neg h2, if_neg h2]
    by_cases h1 : (s.entry p j).val = 1
    · rw [if_pos h1, if_pos h1, hline h1]
    · rw [if_neg h1, if_neg h1]

theorem pageByte_present {s : Machine} {p k d : Fin 4} (hval : (s.entry p k).val = 2)
    (hpfn : (s.entry p k).pfn.toNat = 16 * d.val) (o : Nat) :
    s.pageByte p k o = s.byte (16 * d.val + o) := by
  rw [pageByte, if_pos hval, hpfn]

theorem pageByte_onDisk {s : Machine} {p k : Fin 4} (hval : (s.entry p k).val = 1) (o : Nat) :
    s.pageByte p k o = (s.line (s.entry p k).pfn.toNat).byte o := by
  have h2 : ¬ (s.entry p k).val = 2 := by
    rw [hval]
    decide
  rw [pageByte, if_neg h2, if_pos hval]

theorem pageByte_absent {s : Machine} {p k : Fin 4} (hval : (s.entry p k).val = 0) (o : Nat) :
    s.pageByte p k o = 0 := by
  rw [pageByte, hval]
  rfl

section SwapPage

variable {s : Machine} {q t d k : Fin 4} (howned : s.Owned) (hdisk : s.DiskOk)
  (hbound : s.linecount + 1 < 2 ^ 31) (hq : s.TableAt q t) (hd : s.ispagetable d = false)

include howned hdisk hbound hq hd

theorem swapPage_rewrites : Rewrites s (s.swapPage t d k.val) q k
    ⟨UInt8.ofNat s.linecount, (s.entry q k).prot, 1⟩ := by
  have hnot := howned.not_table hd
  have hbytes : ∀ p o, o < 16 → (s.swapPage t d k.val).tableByte p o =
      if p = q ∧ o = 4 * k.val + 3 then 1
      else if p = q ∧ o = 4 * k.val + 1 then UInt8.ofNat s.linecount else s.tableByte p o := by
    intro p o ho
    have hframes : (s.swapPage t d k.val).tableByte p o = (((((s.appendFrame d).write
        (16 * t.val + 4 * k.val + 1) (UInt8.ofNat s.linecount)).write (16 * t.val + 4 * k.val + 3)
          1).writePage d zeroPage).tableByte p o) :=
      tableByte_congr (s := ((((s.appendFrame d).write _ _).write _ _).writePage d zeroPage))
        howned rfl (fun _ _ => rfl) fun _ => rfl
    rw [hframes,
      tableByte_writePage (s := ((s.appendFrame d).write _ _).write _ _) howned hnot _ ho,
      tableByte_write (s := (s.appendFrame d).write _ _) howned hq (j := 4 * k.val + 3)
        (by omega) (by omega) _ ho,
      tableByte_write (s := s.appendFrame d) howned hq (j := 4 * k.val + 1)
        (by omega) (by omega) _ ho, tableByte_appendFrame howned hdisk hbound d]
  apply rewrites_of_bytes
  · intro p o ho hne
    rw [hbytes p o ho, if_neg (not_entry_byte hne 3 (by decide) (by decide)),
      if_neg (not_entry_byte hne 1 (by decide) (by decide))]
  · rw [hbytes q _ (by omega), if_neg (by omega), if_pos ⟨rfl, rfl⟩]
  · rw [hbytes q _ (by omega), if_neg (by omega), if_neg (by omega)]
    rfl
  · rw [hbytes q _ (by omega), if_pos ⟨rfl, rfl⟩]

omit howned hdisk hbound hd in
/-- Other frames without a table keep their bytes. -/
theorem swapPage_byte {d' : Fin 4} (hd' : ∀ p, ¬ s.TableAt p d') (hne : d' ≠ d) {o : Nat}
    (ho : o < 16) : (s.swapPage t d k.val).byte (16 * d'.val + o) = s.byte (16 * d'.val + o) := by
  have ht : d' ≠ t := by
    intro heq
    subst heq
    exact hd' q hq
  show ((((s.appendFrame d).write _ _).write _ _).writePage d zeroPage).byte _ = _
  rw [byte_writePage, if_neg (by omega), byte_write _ (by omega), if_neg (by omega),
    byte_write _ (by omega), if_neg (by omega), appendFrame_byte]

variable (h : Coherent s) (hval : (s.entry q k).val = 2)
  (hpfn : (s.entry q k).pfn.toNat = 16 * d.val)

include h hval hpfn

theorem swapPage_coherent : Coherent (s.swapPage t d k.val) := by
  have hrw := swapPage_rewrites (k := k) howned hdisk hbound hq hd
  constructor
  · rw [hrw.entry]
    exact h.entries.swapOut hval hpfn
  · intro p j hp
    rw [hrw.vpn]
    exact h.vpn p j hp
  · intro d' hfree o ho
    by_cases hdd : d' = d
    · subst hdd
      show ((((s.appendFrame d').write _ _).write _ _).writePage d' zeroPage).byte _ = _
      rw [byte_writePage, if_pos (by omega), Page.byte_zero]
    · have hfree' : s.freelist d' = true := (Function.update_of_ne hdd _ _).symm.trans hfree
      have hnot := howned.not_table (howned.not_flagged_of_free hfree')
      rw [swapPage_byte hq hnot hdd ho]
      exact h.free d' hfree' o ho

/-- While the line number fits the byte, a page that is swapped out keeps its contents. -/
theorem swapPage_pageByte (hline : s.linecount < 256) (p j : Fin 4) {o : Nat} (ho : o < 16) :
    (s.swapPage t d k.val).pageByte p j o = s.pageByte p j o := by
  have hrw := swapPage_rewrites (k := k) howned hdisk hbound hq hd
  have hgrows := appendFrame_grows hdisk.file hbound d
  by_cases hpj : p = q ∧ j = k
  · obtain ⟨rfl, rfl⟩ := hpj
    have hentry : (s.swapPage t d j.val).entry p j =
        ⟨UInt8.ofNat s.linecount, (s.entry p j).prot, 1⟩ := by
      rw [hrw.entry, Entries.set_self]
    have hone : ((s.swapPage t d j.val).entry p j).val = 1 := by rw [hentry]
    have hnum : ((s.swapPage t d j.val).entry p j).pfn.toNat = s.linecount := by
      rw [hentry, UInt8.toNat_ofNat']
      omega
    have hnew : (s.swapPage t d j.val).line s.linecount = s.page d :=
      appendFrame_line hdisk.file hbound d
    rw [pageByte_onDisk hone, hnum, hnew, byte_page _ _ ho, pageByte_present hval hpfn]
  · have hentry : (s.swapPage t d k.val).entry p j = s.entry p j := by
      rw [hrw.entry, Entries.set_other hpj]
    refine pageByte_congr hentry (fun hval' => ?_) fun hval' => ?_
    · obtain ⟨d', hpfn', hpages, hflag⟩ := h.entries.present p j hval'
      have hne : d' ≠ d := by
        intro heq
        subst heq
        have hqp := (h.entries.present_at hval hpfn).1
        rw [hpages] at hqp
        obtain rfl := Frames.pages_natCast_inj hqp
        have hsame : (s.entry p j).pfn = (s.entry p k).pfn :=
          UInt8.toNat_inj.mp (hpfn'.trans hpfn.symm)
        exact hpj ⟨rfl, h.entries.distinct p j k hval' hval hsame⟩
      rw [hpfn']
      exact swapPage_byte hq (howned.not_table hflag) hne ho
    · exact hgrows.lines _ (h.entries.onDisk p j hval')

end SwapPage

/-! ## A frame given to a page -/

/-- Page `k` of `p` is now in frame `i`, which holds `page`. -/
structure Gives (s u : Machine) (p k i : Fin 4) (prot : UInt8) (page : Page) : Prop where
  frames : u.toFrames = s.toFrames.givePage i p
  count : u.linecount = s.linecount
  text : u.swapspace = s.swapspace
  rewrites : Rewrites s u p k ⟨UInt8.ofNat (16 * i.val), prot, 2⟩
  frame : ∀ o < 16, u.byte (16 * i.val + o) = page.byte o
  other : ∀ d, (∀ q, ¬ s.TableAt q d) → d ≠ i →
    ∀ o < 16, u.byte (16 * d.val + o) = s.byte (16 * d.val + o)

namespace Gives

variable {s u : Machine} {p k i : Fin 4} {prot : UInt8} {page : Page}
  (hg : Gives s u p k i prot page) (howned : s.Owned) (h : Coherent s)
  (hfree : s.freelist i = true)

include hg howned h hfree

theorem coherent : Coherent u := by
  have hpages := (howned.free i).mp hfree
  have hflag := howned.not_flagged_of_free hfree
  constructor
  · rw [hg.rewrites.entry, hg.frames, hg.count]
    exact h.entries.give hpages hflag prot
  · intro q j hq
    rw [hg.frames] at hq
    rw [hg.rewrites.vpn]
    exact h.vpn q j hq
  · intro d hd o ho
    rw [hg.frames] at hd
    obtain ⟨hne, hd'⟩ := Frames.free_of_givePage hd
    rw [hg.other d (howned.not_table (howned.not_flagged_of_free hd')) hne o ho]
    exact h.free d hd' o ho

omit howned h hfree in
theorem pageByte_self {o : Nat} (ho : o < 16) : u.pageByte p k o = page.byte o := by
  have hentry : u.entry p k = ⟨UInt8.ofNat (16 * i.val), prot, 2⟩ := by
    rw [hg.rewrites.entry, Entries.set_self]
  have hval : (u.entry p k).val = 2 := by rw [hentry]
  have hpfn : (u.entry p k).pfn.toNat = 16 * i.val := by
    rw [hentry, UInt8.toNat_ofNat']
    omega
  rw [pageByte_present hval hpfn, hg.frame o ho]

theorem pageByte_other {q j : Fin 4} (hqj : ¬ (q = p ∧ j = k)) {o : Nat} (ho : o < 16) :
    u.pageByte q j o = s.pageByte q j o := by
  have hentry : u.entry q j = s.entry q j := by
    rw [hg.rewrites.entry, Entries.set_other hqj]
  refine pageByte_congr hentry (fun hval => ?_) fun _ => line_congr hg.text _
  obtain ⟨d, hpfn, hpages, hflag⟩ := h.entries.present q j hval
  have hne := howned.ne_of_used (by rw [hpages]; exact Frames.pages_ne_none q) hfree
  rw [hpfn]
  exact hg.other d (howned.not_table hflag) hne o ho

end Gives

/-- `map` gives the cleared frame `i` to page `k` of `p`. -/
def Machine.mappedPage (s : Machine) (p t i : Fin 4) (k : Nat) (prot : UInt8) : Machine :=
  ((((s.withFrames (s.toFrames.givePage i p)).printed
    (.pageAllocated (s.byte (16 * t.val + 4 * k)) (16 * i.val))).write (16 * t.val + 4 * k + 1)
      (UInt8.ofNat (16 * i.val))).write (16 * t.val + 4 * k + 2) prot).write
        (16 * t.val + 4 * k + 3) 2

section GivePage

variable {s : Machine} {p t i k : Fin 4} (howned : s.Owned) (hp : s.TableAt p t)
  (hfree : s.freelist i = true)

include howned hp hfree

theorem loadedPage_gives (n : Nat) :
    Gives s (s.loadedPage p t i k.val n) p k i (s.entry p k).prot (s.line n) := by
  have hnot := howned.not_table (howned.not_flagged_of_free hfree)
  have hti : t ≠ i := hp.ne hnot
  have hbytes : ∀ q o, o < 16 → (s.loadedPage p t i k.val n).tableByte q o =
      if q = p ∧ o = 4 * k.val + 3 then 2
      else if q = p ∧ o = 4 * k.val + 1 then UInt8.ofNat (16 * i.val) else s.tableByte q o := by
    intro q o ho
    have hframes : (s.loadedPage p t i k.val n).tableByte q o =
        (((s.writePage i (s.line n)).write (16 * t.val + 4 * k.val + 1)
          (UInt8.ofNat (16 * i.val))).write (16 * t.val + 4 * k.val + 3) 2).tableByte q o :=
      tableByte_congr (s := ((s.writePage i (s.line n)).write _ _).write _ _)
        howned rfl (fun _ _ => rfl) fun _ => rfl
    rw [hframes, tableByte_write (s := (s.writePage i (s.line n)).write _ _) howned hp
        (j := 4 * k.val + 3) (by omega) (by omega) _ ho,
      tableByte_write (s := s.writePage i (s.line n)) howned hp (j := 4 * k.val + 1)
        (by omega) (by omega) _ ho, tableByte_writePage howned hnot _ ho]
  have hbyte : ∀ b, (s.loadedPage p t i k.val n).byte b =
      if b = 16 * t.val + 4 * k.val + 3 then 2
      else if b = 16 * t.val + 4 * k.val + 1 then UInt8.ofNat (16 * i.val)
      else (s.writePage i (s.line n)).byte b := by
    intro b
    show (((s.writePage i (s.line n)).write _ _).write _ _).byte b = _
    rw [byte_write _ (by omega), byte_write _ (by omega)]
  refine ⟨rfl, rfl, rfl, ?_, ?_, ?_⟩
  · apply rewrites_of_bytes
    · intro q o ho hne
      rw [hbytes q o ho, if_neg (not_entry_byte hne 3 (by decide) (by decide)),
        if_neg (not_entry_byte hne 1 (by decide) (by decide))]
    · rw [hbytes p _ (by omega), if_neg (by omega), if_pos ⟨rfl, rfl⟩]
    · rw [hbytes p _ (by omega), if_neg (by omega), if_neg (by omega)]
      rfl
    · rw [hbytes p _ (by omega), if_pos ⟨rfl, rfl⟩]
  · intro o ho
    have hsub : 16 * i.val + o - 16 * i.val = o := by omega
    rw [hbyte, if_neg (by omega), if_neg (by omega), byte_writePage, if_pos (by omega), hsub]
  · intro d hd hne o ho
    have htd : t ≠ d := hp.ne hd
    rw [hbyte, if_neg (by omega), if_neg (by omega), byte_writePage, if_neg (by omega)]

theorem mappedPage_gives (h : Coherent s) (prot : UInt8) :
    Gives s (s.mappedPage p t i k.val prot) p k i prot zeroPage := by
  have hnot := howned.not_table (howned.not_flagged_of_free hfree)
  have hti : t ≠ i := hp.ne hnot
  have hbytes : ∀ q o, o < 16 → (s.mappedPage p t i k.val prot).tableByte q o =
      if q = p ∧ o = 4 * k.val + 3 then 2
      else if q = p ∧ o = 4 * k.val + 2 then prot
      else if q = p ∧ o = 4 * k.val + 1 then UInt8.ofNat (16 * i.val) else s.tableByte q o := by
    intro q o ho
    have hframes : (s.mappedPage p t i k.val prot).tableByte q o =
        (((s.write (16 * t.val + 4 * k.val + 1) (UInt8.ofNat (16 * i.val))).write
          (16 * t.val + 4 * k.val + 2) prot).write (16 * t.val + 4 * k.val + 3) 2).tableByte q o :=
      tableByte_congr (s := ((s.write _ _).write _ _).write _ _) howned rfl (fun _ _ => rfl)
        fun _ => rfl
    rw [hframes, tableByte_write (s := (s.write _ _).write _ _) howned hp (j := 4 * k.val + 3)
        (by omega) (by omega) _ ho,
      tableByte_write (s := s.write _ _) howned hp (j := 4 * k.val + 2) (by omega) (by omega) _ ho,
      tableByte_write howned hp (j := 4 * k.val + 1) (by omega) (by omega) _ ho]
  have hbyte : ∀ b, (s.mappedPage p t i k.val prot).byte b =
      if b = 16 * t.val + 4 * k.val + 3 then 2
      else if b = 16 * t.val + 4 * k.val + 2 then prot
      else if b = 16 * t.val + 4 * k.val + 1 then UInt8.ofNat (16 * i.val) else s.byte b := by
    intro b
    show (((s.write _ _).write _ _).write _ _).byte b = _
    rw [byte_write _ (by omega), byte_write _ (by omega), byte_write _ (by omega)]
  refine ⟨rfl, rfl, rfl, ?_, ?_, ?_⟩
  · apply rewrites_of_bytes
    · intro q o ho hne
      rw [hbytes q o ho, if_neg (not_entry_byte hne 3 (by decide) (by decide)),
        if_neg (not_entry_byte hne 2 (by decide) (by decide)),
        if_neg (not_entry_byte hne 1 (by decide) (by decide))]
    · rw [hbytes p _ (by omega), if_neg (by omega), if_neg (by omega), if_pos ⟨rfl, rfl⟩]
    · rw [hbytes p _ (by omega), if_neg (by omega), if_pos ⟨rfl, rfl⟩]
    · rw [hbytes p _ (by omega), if_pos ⟨rfl, rfl⟩]
  · intro o ho
    rw [hbyte, if_neg (by omega), if_neg (by omega), if_neg (by omega), h.free i hfree o ho,
      Page.byte_zero]
  · intro d hd hne o ho
    have htd : t ≠ d := hp.ne hd
    rw [hbyte, if_neg (by omega), if_neg (by omega), if_neg (by omega)]

end GivePage

/-! ## What swapping preserves -/

/-- Pages and page tables have only been moved. If `c` holds, no line number was cut off on the
way, and all pages have kept their contents. -/
structure Swapped (c : Prop) (s u : Machine) : Prop where
  coherent : Coherent u
  entry : ∀ p k, (s.entry p k).val ≠ 2 → u.entry p k = s.entry p k
  prot : ∀ p k, (u.entry p k).prot = (s.entry p k).prot
  present : ∀ p k, (s.entry p k).val = 2 → (u.entry p k).val ≠ 0
  contents : c → ∀ p k o, o < 16 → u.pageByte p k o = s.pageByte p k o

namespace Swapped

variable {c c' : Prop} {s u v : Machine}

theorem refl (h : Coherent s) : Swapped c s s := by
  refine ⟨h, fun _ _ _ => rfl, fun _ _ => rfl, fun p k hval => ?_, fun _ _ _ _ _ => rfl⟩
  rw [hval]
  decide

theorem trans (h : Swapped c s u) (h' : Swapped c' u v) : Swapped (c ∧ c') s v where
  coherent := h'.coherent
  entry p k hval := by
    have hu := h.entry p k hval
    rw [h'.entry p k (by rw [hu]; exact hval), hu]
  prot p k := (h'.prot p k).trans (h.prot p k)
  present p k hval := by
    by_cases h2 : (u.entry p k).val = 2
    · exact h'.present p k h2
    · rw [h'.entry p k h2]
      exact h.present p k hval
  contents hc p k o ho := (h'.contents hc.2 p k o ho).trans (h.contents hc.1 p k o ho)

theorem mono (h : Swapped c s u) (hc : c' → c) : Swapped c' s u :=
  ⟨h.coherent, h.entry, h.prot, h.present, fun h' => h.contents (hc h')⟩

/-- The moves of page tables, which leave all entries alone. -/
theorem of_entry (h : Coherent s) (hentry : u.entry = s.entry)
    (hvpn : ∀ p (k : Fin 4), (u.hardware p).inmem ≠ .unset →
      u.tableByte p (4 * k.val) = UInt8.ofNat k.val)
    (hframes : ∀ d, s.pages d ≠ -1 → s.ispagetable d = false →
      u.pages d = s.pages d ∧ u.ispagetable d = false)
    (hcount : s.linecount ≤ u.linecount) (hlines : ∀ n < s.linecount, u.line n = s.line n)
    (hbytes : ∀ d, s.pages d ≠ -1 → s.ispagetable d = false →
      ∀ o < 16, u.byte (16 * d.val + o) = s.byte (16 * d.val + o))
    (hfree : ∀ d, u.freelist d = true → ∀ o < 16, u.byte (16 * d.val + o) = 0) :
    Swapped True s u := by
  refine ⟨⟨?_, hvpn, hfree⟩, fun _ _ _ => by rw [hentry], fun _ _ => by rw [hentry],
    fun p k hval => ?_, fun _ p k o ho => ?_⟩
  · rw [hentry]
    exact h.entries.frames hframes hcount
  · rw [hentry, hval]
    decide
  · refine pageByte_congr (by rw [hentry]) (fun hval => ?_) fun hval => ?_
    · obtain ⟨d, hpfn, hpages, hflag⟩ := h.entries.present p k hval
      rw [hpfn]
      exact hbytes d (by rw [hpages]; exact Frames.pages_ne_none p) hflag o ho
    · exact hlines _ (h.entries.onDisk p k hval)

/-- The moves that keep all bytes of the tables and give no process its first table. -/
theorem of_tables (h : Coherent s) (htable : ∀ p o, o < 16 → u.tableByte p o = s.tableByte p o)
    (hset : ∀ p, (u.hardware p).inmem ≠ .unset → (s.hardware p).inmem ≠ .unset)
    (hframes : ∀ d, s.pages d ≠ -1 → s.ispagetable d = false →
      u.pages d = s.pages d ∧ u.ispagetable d = false)
    (hcount : s.linecount ≤ u.linecount) (hlines : ∀ n < s.linecount, u.line n = s.line n)
    (hbytes : ∀ d, s.pages d ≠ -1 → s.ispagetable d = false →
      ∀ o < 16, u.byte (16 * d.val + o) = s.byte (16 * d.val + o))
    (hfree : ∀ d, u.freelist d = true → ∀ o < 16, u.byte (16 * d.val + o) = 0) :
    Swapped True s u := by
  refine of_entry h (entry_congr htable) (fun p k hp => ?_) hframes hcount hlines hbytes hfree
  rw [htable p _ (by omega)]
  exact h.vpn p k (hset p hp)

/-- Neither the counter nor the output matters. -/
theorem of_turn (h : Coherent s) (r : Fin 4) (hframes : u.toFrames = s.toFrames.turnTo r)
    (hmem : ∀ b, u.byte b = s.byte b) (htext : u.swapspace = s.swapspace)
    (hcount : u.linecount = s.linecount) : Swapped True s u := by
  have hhw : ∀ p, u.hardware p = s.hardware p := by
    rw [hframes]
    exact fun _ => rfl
  have hline : ∀ n, u.line n = s.line n := line_congr htext
  refine of_tables h ?_ ?_ ?_ hcount.ge (fun n _ => hline n) (fun d _ _ o _ => hmem _) ?_
  · intro p o _
    simp only [tableByte, hhw, hmem, hline]
  · intro p hp
    rwa [hhw] at hp
  · intro d _ hflag
    rw [hframes]
    exact ⟨rfl, hflag⟩
  · intro d hd o ho
    rw [hframes] at hd
    rw [hmem]
    exact h.free d hd o ho

end Swapped

theorem evictPage_swapped {s : Machine} {q t d k : Fin 4} (howned : s.Owned) (hdisk : s.DiskOk)
    (hbound : s.linecount + 1 < 2 ^ 31) (hq : s.TableAt q t) (hd : s.ispagetable d = false)
    (h : Coherent s) (hval : (s.entry q k).val = 2)
    (hpfn : (s.entry q k).pfn.toNat = 16 * d.val) :
    Swapped (s.linecount < 256) s (s.evictPage t d k.val) := by
  have hrw := swapPage_rewrites (k := k) howned hdisk hbound hq hd
  have hcoh := swapPage_coherent howned hdisk hbound hq hd h hval hpfn
  have hswap : Swapped (s.linecount < 256) s (s.swapPage t d k.val) := by
    refine ⟨hcoh, fun p j hval' => ?_, ?_, fun p j hval' => ?_, fun hline p j o ho =>
      swapPage_pageByte howned hdisk hbound hq hd h hval hpfn hline p j ho⟩
    · have hpj : ¬ (p = q ∧ j = k) := by
        intro hboth
        obtain ⟨rfl, rfl⟩ := hboth
        exact hval' hval
      rw [hrw.entry, Entries.set_other hpj]
    · rw [hrw.entry]
      exact Entries.forall_set (P := fun p j y => y.prot = (s.entry p j).prot) rfl fun _ _ _ => rfl
    · rw [hrw.entry]
      by_cases hpj : p = q ∧ j = k
      · obtain ⟨rfl, rfl⟩ := hpj
        rw [Entries.set_self]
        exact show (1 : UInt8) ≠ 0 by decide
      · rw [Entries.set_other hpj, hval']
        decide
  have hturn : Swapped True (s.swapPage t d k.val) (s.evictPage t d k.val) :=
    .of_turn hcoh (d + 1) rfl (fun _ => rfl) rfl rfl
  exact (hswap.trans hturn).mono fun hline => ⟨hline, trivial⟩

/-! ## Moves of page tables -/

section NewTable

variable {s : Machine} {p q i d : Fin 4} {o : Nat}

theorem newTable_byte (b : Nat) : (s.newTable p i).byte b =
    if 16 * i.val ≤ b ∧ b < 16 * i.val + 16 then
      if b % 4 = 0 then UInt8.ofNat ((b - 16 * i.val) / 4) else if b % 4 = 3 then 0 else s.byte b
    else s.byte b := by
  rw [newTable, byte_clearTable]
  rfl

/-- The other frames keep their bytes. -/
theorem newTable_other (hne : d ≠ i) (ho : o < 16) :
    (s.newTable p i).byte (16 * d.val + o) = s.byte (16 * d.val + o) := by
  rw [newTable_byte, if_neg (by omega)]

theorem newTable_hardware (hqp : q ≠ p) : (s.newTable p i).hardware q = s.hardware q := by
  rw [newTable_toFrames]
  exact Function.update_of_ne hqp _ _

theorem newTable_tableAt : (s.newTable p i).TableAt p i := by
  rw [newTable_toFrames]
  exact Frames.giveTable_tableAt

theorem newTable_vpn (k : Fin 4) :
    (s.newTable p i).tableByte p (4 * k.val) = UInt8.ofNat k.val := by
  have hdiv : (16 * i.val + 4 * k.val - 16 * i.val) / 4 = k.val := by omega
  rw [tableByte_memory newTable_tableAt, newTable_byte, if_pos (by omega), if_pos (by omega), hdiv]

/-- The other tables keep their bytes, wherever they are. -/
theorem newTable_tableByte (howned : s.Owned) (hfree : s.freelist i = true) (hqp : q ≠ p)
    (ho : o < 16) : (s.newTable p i).tableByte q o = s.tableByte q o := by
  have hnot := howned.not_table (howned.not_flagged_of_free hfree)
  apply tableByte_congr howned (newTable_hardware hqp)
  · intro t ht
    exact newTable_other (ht.ne hnot) ho
  · intro _
    exact line_congr ((control_swapspace (newTable_control s p i)).trans rfl) _

/-- A new table has no entries, as no table has. -/
theorem newTable_entry (howned : s.Owned) (h : Coherent s) (hp : (s.hardware p).inmem = .unset)
    (hfree : s.freelist i = true) : (s.newTable p i).entry = s.entry := by
  have hnew : ∀ o < 16, o % 4 ≠ 0 → (s.newTable p i).tableByte p o = 0 := by
    intro o ho hmod
    rw [tableByte_memory newTable_tableAt, newTable_byte, if_pos (by omega), if_neg (by omega)]
    split_ifs
    · rfl
    · exact h.free i hfree o ho
  funext q k
  simp only [Machine.entry]
  by_cases hqp : q = p
  · subst hqp
    rw [hnew _ (by omega) (by omega), hnew _ (by omega) (by omega), hnew _ (by omega) (by omega),
      tableByte_unset hp, tableByte_unset hp, tableByte_unset hp]
  · rw [newTable_tableByte howned hfree hqp (by omega),
      newTable_tableByte howned hfree hqp (by omega),
      newTable_tableByte howned hfree hqp (by omega)]

end NewTable

section MoveTable

variable {s : Machine} {p q t i : Fin 4}

theorem set_of_update {x : Hp} (hp : (s.hardware p).inmem ≠ .unset)
    (hq : (Function.update s.hardware p x q).inmem ≠ .unset) :
    (s.hardware q).inmem ≠ .unset := by
  by_cases hqp : q = p
  · rwa [hqp]
  · rwa [Function.update_of_ne hqp] at hq

variable (howned : s.Owned) (hdisk : s.DiskOk) (h : Coherent s)

include howned hdisk h

omit hdisk in
theorem loadTable_swapped {n : Nat} (hp : s.hardware p = ⟨n, .file⟩)
    (hfree : s.freelist i = true) : Swapped True s (s.loadTable p i n) := by
  have hnot := howned.not_table (howned.not_flagged_of_free hfree)
  have hbyte : ∀ d : Fin 4, d ≠ i → ∀ o < 16,
      (s.loadTable p i n).byte (16 * d.val + o) = s.byte (16 * d.val + o) := by
    intro d hne o ho
    show (s.popped.writePage i (s.line n)).byte _ = _
    rw [byte_writePage, if_neg (by omega), popped_byte]
  have htable : ∀ q o, o < 16 → (s.loadTable p i n).tableByte q o = s.tableByte q o := by
    intro q o ho
    by_cases hqp : q = p
    · subst hqp
      rw [loadTable_tableByte ho, tableByte_file hp]
    · refine tableByte_congr howned (Function.update_of_ne hqp _ _) (fun t ht => ?_) fun _ => rfl
      exact hbyte t (ht.ne hnot) o ho
  refine .of_tables h htable (fun q => ?_) ?_ le_rfl (fun _ _ => rfl) ?_ ?_
  · apply set_of_update
    rw [hp]
    exact nofun
  · intro d hd hflag
    have hne := howned.ne_of_used hd hfree
    exact ⟨Function.update_of_ne hne _ _, (Function.update_of_ne hne _ _).trans hflag⟩
  · intro d hd _
    exact hbyte d (howned.ne_of_used hd hfree)
  · intro d hd o ho
    obtain ⟨hne, hfree'⟩ := Frames.free_of_giveTable (f := s.toFrames) hd
    rw [hbyte d hne o ho]
    exact h.free d hfree' o ho

theorem swapTable_swapped (hbound : s.linecount + 1 < 2 ^ 31) (hp : s.TableAt p t) :
    Swapped True s (s.swapTable p t) := by
  have hgrows := appendFrame_grows hdisk.file hbound t
  have hflag := (howned.table p t hp).1
  have hbyte : ∀ d : Fin 4, d ≠ t → ∀ o < 16,
      (s.swapTable p t).byte (16 * d.val + o) = s.byte (16 * d.val + o) := by
    intro d hne o ho
    show ((s.appendFrame t).writePage t zeroPage).byte _ = _
    rw [byte_writePage, if_neg (by omega), appendFrame_byte]
  have hlines : ∀ n < s.linecount, (s.swapTable p t).line n = s.line n := hgrows.lines
  have htable : ∀ q o, o < 16 → (s.swapTable p t).tableByte q o = s.tableByte q o := by
    intro q o ho
    by_cases hqp : q = p
    · subst hqp
      have hhw : (s.swapTable q t).hardware q = ⟨(s.linecount : Nat), .file⟩ :=
        Function.update_self _ _ _
      have hnew : (s.swapTable q t).line s.linecount = s.page t :=
        appendFrame_line hdisk.file hbound t
      rw [tableByte_file hhw, hnew, byte_page _ _ ho, tableByte_memory hp]
    · refine tableByte_congr howned (Function.update_of_ne hqp _ _) (fun t' ht' => ?_) fun hin => ?_
      · refine hbyte t' ?_ o ho
        intro heq
        subst heq
        exact hqp (howned.process_inj ht' hp)
      · obtain ⟨n, hn, hhp⟩ := hdisk.line q hin
        rw [hhp]
        exact hlines n hn
  refine .of_tables h htable (fun q => ?_) ?_ (Nat.le_succ _) hlines ?_ ?_
  · apply set_of_update
    rw [hp.inmem]
    exact nofun
  · intro d hd hdflag
    have hne : d ≠ t := by
      intro heq
      subst heq
      cases hflag.symm.trans hdflag
    exact ⟨Function.update_of_ne hne _ _, (Function.update_of_ne hne _ _).trans hdflag⟩
  · intro d _ hdflag
    refine hbyte d ?_
    intro heq
    subst heq
    cases hflag.symm.trans hdflag
  · intro d hd o ho
    by_cases hne : d = t
    · subst hne
      show ((s.appendFrame d).writePage d zeroPage).byte _ = _
      rw [byte_writePage, if_pos (by omega), Page.byte_zero]
    · rw [hbyte d hne o ho]
      exact h.free d ((Function.update_of_ne hne _ _).symm.trans hd) o ho

omit hdisk in
theorem newTable_swapped (hp : (s.hardware p).inmem = .unset) (hfree : s.freelist i = true) :
    Swapped True s (s.newTable p i) := by
  have hframes := newTable_toFrames s p i
  have hused : ∀ d, s.pages d ≠ -1 → d ≠ i := fun d hd => howned.ne_of_used hd hfree
  apply Swapped.of_entry h (newTable_entry howned h hp hfree)
  · intro q k hq
    by_cases hqp : q = p
    · subst hqp
      exact newTable_vpn k
    · rw [newTable_hardware hqp] at hq
      rw [newTable_tableByte howned hfree hqp (by omega)]
      exact h.vpn q k hq
  · intro d hd hflag
    rw [hframes]
    exact ⟨Function.update_of_ne (hused d hd) _ _,
      (Function.update_of_ne (hused d hd) _ _).trans hflag⟩
  · exact ((control_linecount (newTable_control s p i)).trans rfl).ge
  · intro n _
    exact line_congr ((control_swapspace (newTable_control s p i)).trans rfl) n
  · intro d hd _ o ho
    exact newTable_other (hused d hd) ho
  · intro d hd o ho
    rw [hframes] at hd
    obtain ⟨hne, hfree'⟩ := Frames.free_of_giveTable hd
    rw [newTable_other hne ho]
    exact h.free d hfree' o ho

end MoveTable

end Cs3013.Memory
