import Cs3013.Memory.Commands
import Mathlib.Data.Fintype.EquivFin

/-!
# Who owns the frames

`Owned` says that the four arrays of the control data agree. It is kept by every single move of
a page or a page table, and the two counting lemmas at the end say that all frames are page
tables exactly when all processes have their table in memory.
-/
namespace Cs3013.Memory

namespace Frames

/-- The page table of `p` lies in frame `i`. -/
def TableAt (f : Frames) (p i : Fin 4) : Prop := f.hardware p = ⟨16 * i.val, .memory⟩

instance (f : Frames) (p i : Fin 4) : Decidable (f.TableAt p i) :=
  inferInstanceAs (Decidable (f.hardware p = ⟨16 * i.val, .memory⟩))

/-- The four arrays agree: free frames have no owner, every owner has its page table in memory,
and the flags mark exactly these tables. -/
structure Owned (f : Frames) : Prop where
  free : ∀ i, f.freelist i = true ↔ f.pages i = -1
  owner : ∀ i, f.pages i ≠ -1 → ∃ p t, f.pages i = (p.val : Int) ∧ f.TableAt p t
  table : ∀ p i, f.TableAt p i → f.ispagetable i = true ∧ f.pages i = (p.val : Int)
  resident : ∀ p, (f.hardware p).inmem = .memory → ∃ i, f.TableAt p i
  flagged : ∀ i, f.ispagetable i = true → ∃ p, f.TableAt p i

/-- The agreement as it is meant to hold between commands. -/
structure Ownership (f : Frames) : Prop where
  free : ∀ i, f.freelist i = true ↔ f.pages i = -1
  table : ∀ i, f.ispagetable i = true ↔ ∃! p, f.TableAt p i
  owner : ∀ i p, f.ispagetable i = true → f.TableAt p i → f.pages i = (p.val : Int)
  distinct : ∀ p q, (f.hardware p).inmem = .memory → (f.hardware q).inmem = .memory →
    (f.hardware p).address = (f.hardware q).address → p = q
  data : ∀ i, f.freelist i = false → f.ispagetable i = false → ∀ p, ¬ f.TableAt p i

variable {f : Frames} {p q i j d : Fin 4}

theorem TableAt.frame_inj (h : f.TableAt p i) (h' : f.TableAt p j) : i = j := by
  have heq : (16 * (i.val : Int)) = 16 * j.val := congrArg Hp.address (h.symm.trans h')
  omega

theorem TableAt.ne (h : f.TableAt p i) (hd : ∀ q, ¬ f.TableAt q d) : i ≠ d := by
  intro heq
  subst heq
  exact hd p h

theorem TableAt.inmem (h : f.TableAt p i) : (f.hardware p).inmem = .memory := by
  rw [h]

theorem pages_natCast_inj {a b : Fin 4} (h : (a.val : Int) = b.val) : a = b := by omega

theorem pages_ne_none (a : Fin 4) : (a.val : Int) ≠ -1 := by omega

namespace Owned

variable (h : f.Owned)

include h

theorem process_inj (hp : f.TableAt p i) (hq : f.TableAt q i) : p = q :=
  pages_natCast_inj ((h.table p i hp).2.symm.trans (h.table q i hq).2)

theorem ownFlagged (p : Fin 4) : f.OwnFlagged p := fun i hi => (h.table p i hi).1

theorem owner_of_used (hi : f.freelist i = false) :
    ∃ p t, f.pages i = (p.val : Int) ∧ f.TableAt p t := by
  refine h.owner i fun hnone => ?_
  rw [(h.free i).mpr hnone] at hi
  cases hi

theorem used_of_flagged (hi : f.ispagetable i = true) : f.freelist i = false := by
  obtain ⟨p, hp⟩ := h.flagged i hi
  rw [Bool.eq_false_iff]
  intro hfree
  have hpages := (h.free i).mp hfree
  rw [(h.table p i hp).2] at hpages
  exact pages_ne_none p hpages

theorem not_flagged_of_free (hi : f.freelist i = true) : f.ispagetable i = false := by
  rw [Bool.eq_false_iff]
  intro hflag
  rw [h.used_of_flagged hflag] at hi
  cases hi

theorem ne_of_used (hd : f.pages d ≠ -1) (hi : f.freelist i = true) : d ≠ i := by
  intro heq
  subst heq
  exact hd ((h.free d).mp hi)

theorem not_table (hd : f.ispagetable d = false) (q : Fin 4) : ¬ f.TableAt q d := by
  intro hq
  rw [(h.table q d hq).1] at hd
  cases hd

theorem ownership : f.Ownership where
  free := h.free
  table i := by
    constructor
    · intro hi
      obtain ⟨p, hp⟩ := h.flagged i hi
      exact ⟨p, hp, fun q hq => h.process_inj hq hp⟩
    · intro hex
      obtain ⟨p, hp, -⟩ := hex
      exact (h.table p i hp).1
  owner i p _ hp := (h.table p i hp).2
  distinct p q hp hq haddr := by
    obtain ⟨i, hi⟩ := h.resident p hp
    obtain ⟨j, hj⟩ := h.resident q hq
    have hij : (16 * (i.val : Int)) = 16 * j.val := by
      rw [hi, hj] at haddr
      exact haddr
    obtain rfl : i = j := by omega
    exact h.process_inj hi hj
  data _ _ hi := h.not_table hi

/-! ### The moves -/

theorem turnTo (r : Fin 4) : (f.turnTo r).Owned := ⟨h.1, h.2, h.3, h.4, h.5⟩

theorem dropPage (hd : f.ispagetable d = false) : (f.dropPage d).Owned where
  free i := by
    by_cases hi : i = d
    · subst hi
      simp [Frames.dropPage]
    · simpa [Frames.dropPage, hi] using h.free i
  owner i hi := by
    by_cases hid : i = d
    · subst hid
      simp [Frames.dropPage] at hi
    · simp only [Frames.dropPage, Function.update_of_ne hid] at hi ⊢
      exact h.owner i hi
  table p i hp := by
    obtain ⟨hflag, hpages⟩ := h.table p i hp
    have hid := hp.ne (h.not_table hd)
    exact ⟨hflag, (Function.update_of_ne hid _ _).trans hpages⟩
  resident := h.resident
  flagged := h.flagged

theorem givePage {t : Fin 4} (hp : f.TableAt p t) (hd : f.ispagetable d = false) :
    (f.givePage d p).Owned where
  free i := by
    by_cases hi : i = d
    · subst hi
      simp [Frames.givePage, Frames.take, pages_ne_none p]
    · simpa [Frames.givePage, Frames.take, hi] using h.free i
  owner i hi := by
    by_cases hid : i = d
    · subst hid
      exact ⟨p, t, Function.update_self _ _ _, hp⟩
    · simp only [Frames.givePage, Frames.take, Function.update_of_ne hid] at hi ⊢
      exact h.owner i hi
  table q i hq := by
    obtain ⟨hflag, hpages⟩ := h.table q i hq
    have hid := hq.ne (h.not_table hd)
    exact ⟨hflag, (Function.update_of_ne hid _ _).trans hpages⟩
  resident := h.resident
  flagged := h.flagged

/-- A process may also take the frame of its own table. -/
theorem givePage_self (hp : f.TableAt p d) : (f.givePage d p).Owned := by
  obtain ⟨hflag, hpages⟩ := h.table p d hp
  have hfree : f.freelist d = false := h.used_of_flagged hflag
  have htake : Function.update f.freelist d false = f.freelist :=
    Function.update_eq_self_iff.mpr hfree.symm
  have hgive : Function.update f.pages d p.val = f.pages :=
    Function.update_eq_self_iff.mpr hpages.symm
  have hsame : f.givePage d p = f := by
    simp only [Frames.givePage, Frames.take, htake, hgive]
  rw [hsame]
  exact h

theorem giveTable (hp : (f.hardware p).inmem ≠ .memory) (hd : f.ispagetable d = false) :
    (f.giveTable d p).Owned where
  free i := by
    by_cases hi : i = d
    · subst hi
      simp [Frames.giveTable, Frames.givePage, Frames.take, pages_ne_none p]
    · simpa [Frames.giveTable, Frames.givePage, Frames.take, hi] using h.free i
  owner i hi := by
    have hself : (f.giveTable d p).TableAt p d := Function.update_self _ _ _
    by_cases hid : i = d
    · subst hid
      exact ⟨p, i, Function.update_self _ _ _, hself⟩
    · have hpages : (f.giveTable d p).pages i = f.pages i := Function.update_of_ne hid _ _
      rw [hpages] at hi ⊢
      obtain ⟨q, t, hq, ht⟩ := h.owner i hi
      by_cases hqp : q = p
      · exact ⟨p, d, hqp ▸ hq, hself⟩
      · exact ⟨q, t, hq, (Function.update_of_ne hqp _ _).trans ht⟩
  table q i hq := by
    by_cases hqp : q = p
    · subst hqp
      have hself : (f.giveTable d q).TableAt q d := Function.update_self _ _ _
      obtain rfl := hself.frame_inj hq
      exact ⟨Function.update_self _ _ _, Function.update_self _ _ _⟩
    · have hq' : f.TableAt q i := (Function.update_of_ne hqp _ _).symm.trans hq
      obtain ⟨hflag, hpages⟩ := h.table q i hq'
      have hid := hq'.ne (h.not_table hd)
      exact ⟨(Function.update_of_ne hid _ _).trans hflag,
        (Function.update_of_ne hid _ _).trans hpages⟩
  resident q hq := by
    by_cases hqp : q = p
    · subst hqp
      exact ⟨d, Function.update_self _ _ _⟩
    · have hhw : (f.giveTable d p).hardware q = f.hardware q := Function.update_of_ne hqp _ _
      rw [hhw] at hq
      obtain ⟨i, hi⟩ := h.resident q hq
      exact ⟨i, hhw.trans hi⟩
  flagged i hi := by
    by_cases hid : i = d
    · subst hid
      exact ⟨p, Function.update_self _ _ _⟩
    · have hflag : f.ispagetable i = true := (Function.update_of_ne hid _ _).symm.trans hi
      obtain ⟨q, hq⟩ := h.flagged i hflag
      have hqp : q ≠ p := by
        intro heq
        subst heq
        exact hp hq.inmem
      exact ⟨q, (Function.update_of_ne hqp _ _).trans hq⟩

/-- A page table may leave when its process has no other frame. -/
theorem dropTable (hp : f.TableAt p d) (hlast : ∀ i, i ≠ d → f.pages i ≠ p.val) (line : Nat) :
    (f.dropTable d p line).Owned where
  free i := by
    by_cases hi : i = d
    · subst hi
      simp [Frames.dropTable, Frames.dropPage]
    · simpa [Frames.dropTable, Frames.dropPage, hi] using h.free i
  owner i hi := by
    by_cases hid : i = d
    · subst hid
      simp [Frames.dropTable, Frames.dropPage] at hi
    · have hpages : (f.dropTable d p line).pages i = f.pages i := Function.update_of_ne hid _ _
      rw [hpages] at hi ⊢
      obtain ⟨q, t, hq, ht⟩ := h.owner i hi
      have hqp : q ≠ p := by
        intro heq
        subst heq
        exact hlast i hid hq
      exact ⟨q, t, hq, (Function.update_of_ne hqp _ _).trans ht⟩
  table q i hq := by
    have hqp : q ≠ p := by
      intro heq
      subst heq
      have hself : (f.dropTable d q line).hardware q = ⟨line, .file⟩ := Function.update_self _ _ _
      rw [TableAt, hself] at hq
      cases congrArg Hp.inmem hq
    have hq' : f.TableAt q i := (Function.update_of_ne hqp _ _).symm.trans hq
    have hid : i ≠ d := by
      intro heq
      subst heq
      exact hqp (h.process_inj hq' hp)
    obtain ⟨hflag, hpages⟩ := h.table q i hq'
    exact ⟨(Function.update_of_ne hid _ _).trans hflag,
      (Function.update_of_ne hid _ _).trans hpages⟩
  resident q hq := by
    have hqp : q ≠ p := by
      intro heq
      subst heq
      have hself : (f.dropTable d q line).hardware q = ⟨line, .file⟩ := Function.update_self _ _ _
      rw [hself] at hq
      cases hq
    have hhw : (f.dropTable d p line).hardware q = f.hardware q := Function.update_of_ne hqp _ _
    rw [hhw] at hq
    obtain ⟨i, hi⟩ := h.resident q hq
    exact ⟨i, hhw.trans hi⟩
  flagged i hi := by
    have hid : i ≠ d := by
      intro heq
      subst heq
      have hself : (f.dropTable i p line).ispagetable i = false := Function.update_self _ _ _
      rw [hself] at hi
      cases hi
    have hflag : f.ispagetable i = true := (Function.update_of_ne hid _ _).symm.trans hi
    obtain ⟨q, hq⟩ := h.flagged i hflag
    have hqp : q ≠ p := by
      intro heq
      subst heq
      exact hid (hq.frame_inj hp)
    exact ⟨q, (Function.update_of_ne hqp _ _).trans hq⟩

/-! ### Counting -/

/-- Four page tables belong to four processes. -/
theorem all_resident (hall : ∀ i, f.ispagetable i = true) (p : Fin 4) : ∃ i, f.TableAt p i := by
  choose owner howner using fun i => h.flagged i (hall i)
  have hinj : Function.Injective owner := by
    intro i j hij
    exact (howner i).frame_inj (hij ▸ howner j)
  obtain ⟨i, rfl⟩ := Finite.surjective_of_injective hinj p
  exact ⟨i, howner i⟩

theorem all_flagged (hall : ∀ p, ∃ i, f.TableAt p i) (i : Fin 4) : f.ispagetable i = true := by
  choose frame hframe using hall
  have hinj : Function.Injective frame := by
    intro p q hpq
    exact h.process_inj (hframe p) (hpq ▸ hframe q)
  obtain ⟨p, rfl⟩ := Finite.surjective_of_injective hinj i
  exact (h.table p _ (hframe p)).1

/-- A process without its table in memory leaves a frame for something else than a table. -/
theorem exists_not_flagged (hp : (f.hardware p).inmem ≠ .memory) :
    ∃ i, f.ispagetable i = false := by
  by_contra hnone
  simp only [not_exists, Bool.not_eq_false] at hnone
  obtain ⟨i, hi⟩ := h.all_resident hnone p
  exact hp hi.inmem

end Owned

end Frames

end Cs3013.Memory
