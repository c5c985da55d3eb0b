import Cs3013.Memory.Ownership

/-!
# The entry that `removePage` rewrites

`removePage` compares all sixteen bytes of the owner's table with the address of the frame and takes
the byte in front of the last match as the page number. It also keeps the `int` number of the new
line in one byte. Both results below say when the entry of the page, and the page itself, come
through.
-/
namespace Cs3013.Memory

open Cs3013.Library.Faulting Machine

namespace Machine

variable (s : Machine) (t d k : Fin 4)

/-- Byte `o` is the last byte of the table in frame `t` that equals the address of frame `d`. -/
structure LastAt (o : Nat) : Prop where
  lt : o < 16
  byte : (s.byte (16 * t.val + o)).toNat = 16 * d.val
  last : ∀ o', o < o' → o' < 16 → (s.byte (16 * t.val + o')).toNat ≠ 16 * d.val

/-- Entry `k` is the one present entry of the table in frame `t` for frame `d`. -/
structure PresentAt : Prop where
  vpn : ∀ j : Fin 4, (s.byte (16 * t.val + 4 * j.val)).toNat = j.val
  present : ∀ j : Fin 4, (s.byte (16 * t.val + 4 * j.val + 1)).toNat = 16 * d.val ∧
    s.byte (16 * t.val + 4 * j.val + 3) = 2 ↔ j = k

/-- The address of frame `d` is in no other byte of the table in frame `t` than in the present entry
`k`. -/
structure OnlyAt : Prop where
  only : ∀ o < 16, (s.byte (16 * t.val + o)).toNat = 16 * d.val ↔ o = 4 * k.val + 1
  vpn : (s.byte (16 * t.val + 4 * k.val)).toNat = k.val
  present : s.byte (16 * t.val + 4 * k.val + 3) = 2

end Machine

/-! ## The search -/

section Search

variable {s : Machine} {t d k : Fin 4} {o : Nat}

/-- A loop that overwrites its result at every match keeps it where nothing matches. -/
theorem foldl_no_match {α β : Type} (P : α → Prop) [DecidablePred P] (g : α → β) {l : List α}
    (hl : ∀ c ∈ l, ¬ P c) (b : β) : l.foldl (fun b c => if P c then g c else b) b = b := by
  induction l with
  | nil => rfl
  | cons c l ih =>
    rw [List.foldl_cons, if_neg (hl c List.mem_cons_self)]
    exact ih fun e he => hl e (List.mem_cons_of_mem c he)

/-- It ends with the last match. -/
theorem foldl_match {α β : Type} (P : α → Prop) [DecidablePred P] (g : α → β) (b : β)
    {l l' : List α} {a : α} (ha : P a) (hl : ∀ c ∈ l', ¬ P c) :
    (l ++ a :: l').foldl (fun b c => if P c then g c else b) b = g a := by
  rw [List.foldl_append, List.foldl_cons, if_pos ha]
  exact foldl_no_match P g hl (g a)

theorem search_of_none (h : ∀ o < 16, (s.byte (16 * t.val + o)).toNat ≠ 16 * d.val) :
    s.search t d = 0 :=
  foldl_no_match (fun o => (s.byte (16 * t.val + o)).toNat = 16 * d.val)
    (fun o => (s.byte (16 * t.val + o - 1)).toNat) (fun o ho => h o (List.mem_range.mp ho)) 0

theorem search_of_last (h : s.LastAt t d o) :
    s.search t d = (s.byte (16 * t.val + o - 1)).toNat := by
  have hlt := h.lt
  have hsplit : List.range 16 = List.range o ++ o :: (List.range (15 - o)).map (o + 1 + ·) := by
    have hcount : 16 = o + 1 + (15 - o) := by omega
    have hrange := List.range_add (n := o + 1) (m := 15 - o)
    rw [← hcount, List.range_succ (n := o), List.append_assoc] at hrange
    exact hrange
  rw [Machine.search, hsplit]
  apply foldl_match (fun o => (s.byte (16 * t.val + o)).toNat = 16 * d.val)
    (fun o => (s.byte (16 * t.val + o - 1)).toNat) 0 h.byte
  intro o' ho'
  obtain ⟨i, hi, rfl⟩ := List.mem_map.mp ho'
  have hrange := List.mem_range.mp hi
  exact h.last _ (by omega) (by omega)

/-- Where the address occurs at all, it has a last occurrence. -/
theorem exists_last (ho : o < 16) (h : (s.byte (16 * t.val + o)).toNat = 16 * d.val) :
    ∃ o', o ≤ o' ∧ s.LastAt t d o' := by
  let P := fun o => (s.byte (16 * t.val + o)).toNat = 16 * d.val
  have hat : P (Nat.findGreatest P 15) := Nat.findGreatest_spec (m := o) (by omega) h
  have hle : Nat.findGreatest P 15 ≤ 15 := Nat.findGreatest_le 15
  refine ⟨Nat.findGreatest P 15, Nat.le_findGreatest (by omega) h, by omega, hat, ?_⟩
  intro o' hlast ho'
  exact Nat.findGreatest_is_greatest (P := P) hlast (by omega)

/-- The first byte of the table is not the address of another frame. -/
theorem search_inside (hvpn : (s.byte (16 * t.val)).toNat = 0) (hne : d ≠ t) :
    0 < t.val ∨ (s.byte (16 * t.val)).toNat ≠ 16 * d.val := by
  have hval : d.val ≠ t.val := fun h => hne (Fin.ext h)
  omega

end Search

/-! ## The entry -/

section Entry

variable {s : Machine} {p t d k : Fin 4}

theorem byte_swapPage {vp : Nat} (hvp : 16 * t.val + 4 * vp + 3 < 64) (a : Nat) :
    (s.swapPage t d vp).byte a =
      if 16 * d.val ≤ a ∧ a < 16 * d.val + 16 then 0
      else if a = 16 * t.val + 4 * vp + 3 then 1
      else if a = 16 * t.val + 4 * vp + 1 then UInt8.ofNat s.linecount else s.byte a := by
  show ((((s.appendFrame d).write _ _).write _ _).writePage d zeroPage).byte _ = _
  rw [byte_writePage, Page.byte_zero, byte_write _ hvp, byte_write _ (by omega), appendFrame_byte]

theorem byte_evictPage {vp : Nat} (hvp : 16 * t.val + 4 * vp + 3 < 64) (a : Nat) :
    (s.evictPage t d vp).byte a =
      if 16 * d.val ≤ a ∧ a < 16 * d.val + 16 then 0
      else if a = 16 * t.val + 4 * vp + 3 then 1
      else if a = 16 * t.val + 4 * vp + 1 then UInt8.ofNat s.linecount else s.byte a :=
  byte_swapPage (s := (s.withFrames (s.toFrames.turnTo d)).noted (s.removal d)) hvp a

/-- Of all bytes outside of frame `d` only the frame number and the valid bits of entry `k` change,
to the number of the new line and to 1. -/
def Updated (s u : Machine) (t d k : Fin 4) : Prop :=
  (u.byte (16 * t.val + 4 * k.val + 1)).toNat = s.linecount ∧
    u.byte (16 * t.val + 4 * k.val + 3) = 1 ∧
    ∀ a < 64, a / 16 ≠ d.val → a ≠ 16 * t.val + 4 * k.val + 1 →
      a ≠ 16 * t.val + 4 * k.val + 3 → u.byte a = s.byte a

instance (s u : Machine) (t d k : Fin 4) : Decidable (Updated s u t d k) := by
  unfold Updated
  infer_instance

def UpdatesEntry (s : Machine) (p t d k : Fin 4) : Prop :=
  wp (removePage p.val (16 * d.val)) (fun _ u => Updated s u t d k) (fun _ _ => False) s

instance (s : Machine) (p t d k : Fin 4) : Decidable (UpdatesEntry s p t d k) :=
  inferInstanceAs (Decidable (wp _ _ _ _))

/-- The entry is updated as meant when the search gives it and the line number fits one byte. -/
theorem updatesEntry_of_search (htable : s.TableAt p t) (hne : d ≠ t)
    (hzero : (s.byte (16 * t.val)).toNat = 0) (hsearch : s.search t d = k.val)
    (hline : s.linecount < 256) : UpdatesEntry s p t d k := by
  have hval : d.val ≠ t.val := fun h => hne (Fin.ext h)
  have hevict : s.Evictable t d := ⟨search_inside hzero hne, by omega, by omega⟩
  have hvp : 16 * t.val + 4 * k.val + 3 < 64 := by omega
  have hbyte := byte_swapPage (s := s) (d := d) hvp
  unfold UpdatesEntry
  rw [wp_of_ok (removePage_ok htable hevict), hsearch]
  refine ⟨?_, ?_, ?_⟩
  · rw [hbyte, if_neg (by omega), if_neg (by omega), if_pos rfl, UInt8.toNat_ofNat']
    exact Nat.mod_eq_of_lt hline
  · rw [hbyte, if_neg (by omega), if_pos rfl]
  · intro a _ hframe hpfn hvalpres
    rw [hbyte, if_neg (by omega), if_neg hvalpres, if_neg hpfn]

/-- Another result of the search leaves entry `k` as it is. -/
theorem search_of_updatesEntry (htable : s.TableAt p t) (hne : d ≠ t)
    (hpresent : s.byte (16 * t.val + 4 * k.val + 3) = 2) (h : UpdatesEntry s p t d k) :
    s.search t d = k.val ∧ s.linecount < 256 := by
  have hval : d.val ≠ t.val := fun h => hne (Fin.ext h)
  by_cases hevict : s.Evictable t d
  · have hbyte := byte_swapPage (s := s) (d := d) hevict.entry
    obtain ⟨hpfn, hvalpres, -⟩ := wp_ok h (removePage_ok htable hevict)
    have hsearch : s.search t d = k.val := by
      by_contra hother
      rw [hbyte, if_neg (by omega), if_neg (by omega), if_neg (by omega), hpresent] at hvalpres
      cases hvalpres
    rw [hbyte, if_neg (by omega), if_neg (by omega), hsearch, if_pos rfl,
      UInt8.toNat_ofNat'] at hpfn
    have hlt : s.linecount % 2 ^ 8 < 2 ^ 8 := Nat.mod_lt _ (by decide)
    exact ⟨hsearch, by omega⟩
  · obtain ⟨e, u, hfault⟩ := removePage_fault htable hevict
    unfold UpdatesEntry wp at h
    rw [hfault] at h
    exact h.elim

/-- `removePage` updates the entry of the page exactly when the last byte of the table that equals
the frame address stands behind the number of that page, and the line number fits one byte. -/
theorem removePage_updates_entry_iff (htable : s.TableAt p t) (hne : d ≠ t)
    (hentry : s.PresentAt t d k) : UpdatesEntry s p t d k ↔
      s.linecount < 256 ∧
        ∃ o, s.LastAt t d o ∧ (s.byte (16 * t.val + o - 1)).toNat = k.val := by
  obtain ⟨hpfn, hpresent⟩ := (hentry.present k).mpr rfl
  constructor
  · intro h
    obtain ⟨hsearch, hline⟩ := search_of_updatesEntry htable hne hpresent h
    obtain ⟨o, -, hlast⟩ := exists_last (o := 4 * k.val + 1) (by omega) hpfn
    exact ⟨hline, o, hlast, (search_of_last hlast).symm.trans hsearch⟩
  · intro h
    obtain ⟨hline, o, hlast, hnumber⟩ := h
    exact updatesEntry_of_search htable hne (hentry.vpn 0) ((search_of_last hlast).trans hnumber)
      hline

theorem threePages_entry : ∃ h s, memsim.RunIf (fun _ _ => True) h s ∧
    h.map Event.cmd = [Cmd.map 0 0 1, .map 0 16 1, .map 0 32 1].reverse ∧
      (s.TableAt 0 0 ∧ (∀ j : Fin 4, (s.byte (16 * 0 + 4 * j.val)).toNat = j.val) ∧
        (∀ j : Fin 4, (s.byte (16 * 0 + 4 * j.val + 1)).toNat = 16 * 1 ∧
          s.byte (16 * 0 + 4 * j.val + 3) = 2 ↔ j = 0) ∧
        UpdatesEntry s 0 0 1 0) :=
  exists_run (fun _ _ => True) [] (by decide +kernel)

/-- The first page of three is removed as meant. -/
theorem removePage_updates_entry_three : ∃ h s o, memsim.Run h s ∧
    h.map Event.cmd = [Cmd.map 0 0 1, .map 0 16 1, .map 0 32 1].reverse ∧
    s.linecount < 256 ∧ s.LastAt 0 1 o ∧ (s.byte (16 * 0 + o - 1)).toNat = 0 := by
  obtain ⟨h, s, hrun, hcmds, htable, hvpn, hpresent, hupdates⟩ := threePages_entry
  obtain ⟨hline, o, hlast, hnumber⟩ :=
    (removePage_updates_entry_iff htable (by decide) ⟨hvpn, hpresent⟩).mp hupdates
  exact ⟨h, s, o, hrun, hcmds, hline, hlast, hnumber⟩

theorem protection_entry : ∃ h s, memsim.RunIf (fun _ _ => True) h s ∧
    h.map Event.cmd = [Cmd.map 0 0 16, .map 0 16 1, .map 0 32 1].reverse ∧
      (s.TableAt 0 0 ∧ (∀ j : Fin 4, (s.byte (16 * 0 + 4 * j.val)).toNat = j.val) ∧
        (∀ j : Fin 4, (s.byte (16 * 0 + 4 * j.val + 1)).toNat = 16 * 1 ∧
          s.byte (16 * 0 + 4 * j.val + 3) = 2 ↔ j = 0) ∧
        ¬ UpdatesEntry s 0 0 1 0) :=
  exists_run (fun _ _ => True) [] (by decide +kernel)

/-- The protection 16 is taken for the address of frame 1, and the byte in front of it for the
number of the page. -/
theorem removePage_takes_protection : ∃ h s, memsim.Run h s ∧
    h.map Event.cmd = [Cmd.map 0 0 16, .map 0 16 1, .map 0 32 1].reverse ∧
    s.TableAt 0 0 ∧ s.PresentAt 0 1 0 ∧ ¬ UpdatesEntry s 0 0 1 0 := by
  obtain ⟨h, s, hrun, hcmds, htable, hvpn, hpresent, hother⟩ := protection_entry
  exact ⟨h, s, hrun, hcmds, htable, ⟨hvpn, hpresent⟩, hother⟩

end Entry

/-! ## The page -/

section RoundTrip

variable {s : Machine} {p t d k i : Fin 4} {records : List Page}

/-- A page that `removePage` has taken out of frame `d` and `loadPage` has brought back: the frame
it is in now holds the same bytes, and entry `k` names that frame and is otherwise as before. -/
def ComesBack (s : Machine) (p t d k : Fin 4) : Prop :=
  wp (do
      removePage p.val (16 * d.val)
      loadPage p.val (16 * k.val))
    (fun r v => ∃ i : Fin 4, r = 16 * i.val ∧ v.page i = s.page d ∧ v.TableAt p t ∧
      v.byte (16 * t.val + 4 * k.val) = s.byte (16 * t.val + 4 * k.val) ∧
      (v.byte (16 * t.val + 4 * k.val + 1)).toNat = 16 * i.val ∧
      v.byte (16 * t.val + 4 * k.val + 2) = s.byte (16 * t.val + 4 * k.val + 2) ∧
      v.byte (16 * t.val + 4 * k.val + 3) = 2)
    (fun _ _ => False) s

theorem byte_loadedPage {n : Nat} (a : Nat) :
    (s.loadedPage p t i k.val n).byte a =
      if a = 16 * t.val + 4 * k.val + 3 then 2
      else if a = 16 * t.val + 4 * k.val + 1 then UInt8.ofNat (16 * i.val)
      else if 16 * i.val ≤ a ∧ a < 16 * i.val + 16 then (s.line n).byte (a - 16 * i.val)
      else s.byte a := by
  show ((((s.popped.writePage i (s.line n)).withFrames (s.toFrames.givePage i p)).write _ _).write
    _ _).byte a = _
  rw [byte_write _ (by omega), byte_write _ (by omega), withFrames_byte, byte_writePage,
    popped_byte]

theorem page_loadedPage {n : Nat} (hne : i ≠ t) :
    (s.loadedPage p t i k.val n).page i = s.line n := by
  have hval : i.val ≠ t.val := fun h => hne (Fin.ext h)
  apply Page.ext_byte
  intro o ho
  rw [byte_page _ _ ho, byte_loadedPage, if_neg (by omega), if_neg (by omega), if_pos (by omega),
    Nat.add_sub_cancel_left]

/-- What `loadPage` reads: the line whose number is the last byte of linecount. -/
theorem line_swapPage (hfile : FileHolds s records) (hbound : s.linecount + 1 < 2 ^ 31) :
    (s.swapPage t d k.val).line (s.linecount % 256) = s.page d ↔
      s.linecount < 256 ∨ records[s.linecount % 256]? = some (s.page d) := by
  have hline : (s.swapPage t d k.val).line (s.linecount % 256) =
      (s.appendFrame d).line (s.linecount % 256) := line_congr rfl _
  have hmod : s.linecount % 256 < 256 := Nat.mod_lt _ (by decide)
  rw [hline]
  by_cases hlt : s.linecount < 256
  · rw [Nat.mod_eq_of_lt hlt, appendFrame_line ⟨records, hfile⟩ hbound]
    exact ⟨fun _ => .inl hlt, fun _ => rfl⟩
  · have hold : s.linecount % 256 < records.length := by
      rw [hfile.count]
      omega
    rw [(appendFrame_grows ⟨records, hfile⟩ hbound d).lines _ (by omega), hfile.line_eq hold,
      List.getElem?_eq_getElem hold, Option.some_inj]
    exact ⟨.inr, fun h => h.resolve_left hlt⟩

/-- Both moves together, up to what the line contains. -/
theorem comesBack_iff_line (htable : s.TableAt p t) (hfile : FileHolds s records) (hne : d ≠ t)
    (hpage : s.OnlyAt t d k) (hused : ∀ i, i ≠ d → s.freelist i = false)
    (hbound : s.linecount + 1 < 2 ^ 31) :
    ComesBack s p t d k ↔ (s.swapPage t d k.val).line (s.linecount % 256) = s.page d := by
  have hval : d.val ≠ t.val := fun h => hne (Fin.ext h)
  have hlast : s.LastAt t d (4 * k.val + 1) := by
    refine ⟨by omega, (hpage.only _ (by omega)).mpr rfl, fun o hlt ho h => ?_⟩
    have := (hpage.only o ho).mp h
    omega
  have hsearch : s.search t d = k.val := (search_of_last hlast).trans hpage.vpn
  have hfirst : (s.byte (16 * t.val)).toNat ≠ 16 * d.val := by
    intro h
    have := (hpage.only 0 (by decide)).mp h
    omega
  have hevict : s.Evictable t d := ⟨.inr hfirst, by omega, hbound⟩
  have hvp : 16 * t.val + 4 * k.val + 3 < 64 := by omega
  have hbyte := byte_swapPage (s := s) (d := d) hvp
  -- the only free frame is the one that has just been cleared
  have hfree : frameList.find? (s.swapPage t d k.val).freelist = some d := by
    have key : ∀ (d : Fin 4) (free : Fin 4 → Bool), (∀ i, i ≠ d → free i = false) →
        frameList.find? (Function.update free d true) = some d := by decide
    exact key d s.freelist hused
  have hnumber : ((s.swapPage t d k.val).byte (16 * t.val + 4 * (16 * k.val / 16) + 1)).toNat =
      s.linecount % 256 := by
    rw [Nat.mul_div_cancel_left _ (by decide), hbyte, if_neg (by omega), if_neg (by omega),
      if_pos rfl, UInt8.toNat_ofNat']
  have hlines : FileOk (s.swapPage t d k.val) :=
    FileOk.congr ⟨_, appendFrame_holds hfile hbound d⟩ rfl rfl
  have hvaddr : 16 * k.val < 64 := by omega
  have hload := loadPage_ok (s := s.swapPage t d k.val) (p := p) (t := t) htable hvaddr hnumber
    (Nat.lt_succ_of_le (Nat.mod_le _ _)) hlines hfree
  rw [Nat.mul_div_cancel_left _ (by decide)] at hload
  have hremove := removePage_ok htable hevict
  rw [hsearch] at hremove
  unfold ComesBack
  rw [wp_bind, wp_of_ok hremove, wp_of_ok hload]
  constructor
  · intro h
    obtain ⟨i, hi, hbytes, -⟩ := h
    obtain rfl : d = i := by omega
    rwa [page_loadedPage hne] at hbytes
  · intro h
    refine ⟨d, rfl, (page_loadedPage hne).trans h, htable, ?_, ?_, ?_, ?_⟩
    · rw [byte_loadedPage, if_neg (by omega), if_neg (by omega), if_neg (by omega), hbyte,
        if_neg (by omega), if_neg (by omega), if_neg (by omega)]
    · rw [byte_loadedPage, if_neg (by omega), if_pos rfl, UInt8.toNat_ofNat']
      omega
    · rw [byte_loadedPage, if_neg (by omega), if_neg (by omega), if_neg (by omega), hbyte,
        if_neg (by omega), if_neg (by omega), if_neg (by omega)]
    · rw [byte_loadedPage, if_pos rfl]

/-- A page comes back from the file exactly when its line number fits one byte, or the line that is
read in its place holds the same bytes. -/
theorem page_comes_back_iff (htable : s.TableAt p t) (hfile : FileHolds s records) (hne : d ≠ t)
    (hpage : s.OnlyAt t d k) (hused : ∀ i, i ≠ d → s.freelist i = false) :
    ComesBack s p t d k ↔ s.linecount + 1 < 2 ^ 31 ∧
      (s.linecount < 256 ∨ records[s.linecount % 256]? = some (s.page d)) := by
  by_cases hbound : s.linecount + 1 < 2 ^ 31
  · rw [comesBack_iff_line htable hfile hne hpage hused hbound, line_swapPage hfile hbound]
    exact ⟨fun h => ⟨hbound, h⟩, fun h => h.2⟩
  · constructor
    · intro h
      have hfirst : (s.byte (16 * t.val)).toNat ≠ 16 * d.val := by
        intro h
        have := (hpage.only 0 (by decide)).mp h
        omega
      unfold ComesBack wp at h
      rw [bind_run, removePage_overflow htable (.inr hfirst) hbound] at h
      exact h.elim
    · intro h
      exact absurd h.1 hbound

/-- Three pages of process 0 in frames 1 to 3, behind its page table, and any swap file. Page 0 is
full of ones. -/
def threePages (records : List Page) : Machine where
  freelist := fun _ => false
  pages := fun _ => 0
  ispagetable := fun i => i = 0
  hardware := fun p => if p = 0 then ⟨0, .memory⟩ else ⟨0, .unset⟩
  roundrobin := 0
  mem := Vector.ofFn fun a =>
    if a.val < 32 then [0, 16, 1, 2, 1, 32, 1, 2, 2, 48, 1, 2, 3, 0, 0, 0].getD a.val 1 else 0
  linecount := records.length
  swapspace := swapText 0 records
  stack := []
  out := []
  calls := []
  written := records.map Vector.toList

theorem threePages_onlyAt : (threePages records).OnlyAt 0 1 0 := by
  constructor
  · show ∀ o < 16, ((threePages []).byte (16 * 0 + o)).toNat = 16 * 1 ↔ o = 4 * 0 + 1
    decide +kernel
  · rfl
  · rfl

theorem threePages_page : (threePages records).page 1 = Vector.replicate 16 1 := by
  apply Page.ext_byte
  show ∀ o < 16, ((threePages []).page 1).byte o = Page.byte (Vector.replicate 16 1) o
  decide +kernel

theorem threePages_holds (h : records.length < 2 ^ 31) : FileHolds (threePages records) records :=
  ⟨rfl, rfl, h⟩

theorem threePages_tableAt : (threePages records).TableAt 0 0 := rfl

theorem threePages_used (i : Fin 4) (_ : i ≠ 1) : (threePages records).freelist i = false := rfl

theorem page_comes_back_first : ComesBack (threePages []) 0 0 1 0 := by
  have hfile : FileHolds (threePages []) [] := threePages_holds (Nat.two_pow_pos 31)
  have hcount : (threePages []).linecount = 0 := rfl
  rw [page_comes_back_iff threePages_tableAt hfile (by decide) threePages_onlyAt threePages_used]
  omega

/-- The 257th line gets the number 0, and the page that comes back is the one of line 0. -/
theorem page_lost_at_256 : ∃ s records, s.TableAt 0 0 ∧ FileHolds s records ∧
    s.linecount = 256 ∧ s.OnlyAt 0 1 0 ∧ (∀ i, i ≠ 1 → s.freelist i = false) ∧
    ¬ ComesBack s 0 0 1 0 := by
  obtain ⟨records, hlen, hzero⟩ : ∃ records : List Page, records.length = 256 ∧
      records[0]? = some zeroPage :=
    ⟨zeroPage :: List.replicate 255 zeroPage,
      by rw [List.length_cons, List.length_replicate], rfl⟩
  have hfile : FileHolds (threePages records) records := threePages_holds (by omega)
  have hcount : (threePages records).linecount = 256 := hlen
  refine ⟨threePages records, records, threePages_tableAt, hfile, hcount, threePages_onlyAt,
    threePages_used, fun h => ?_⟩
  have hline := (comesBack_iff_line threePages_tableAt hfile (by decide) threePages_onlyAt
    threePages_used (by omega)).mp h
  rcases (line_swapPage hfile (by omega)).mp hline with hlt | hsame
  · omega
  · rw [hcount, Nat.mod_self, hzero, threePages_page] at hsame
    have hbyte := congrArg (fun page => Page.byte page 0) (Option.some_inj.mp hsame)
    exact absurd hbyte (by decide)

end RoundTrip

end Cs3013.Memory
