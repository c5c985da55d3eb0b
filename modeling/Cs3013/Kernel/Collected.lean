import Cs3013.Kernel.Ancestry

/-!
# What the ancestry call collects

On a process tree the record holds the children and the parents of the target, and as its siblings
all children of its parent, the target among them. A list that fills its array to the last cell is
rejected like one that is too long. On any other graph a call that fails leaves the record of the
user alone, and the loop over the parents is ended by the length of its array.
-/
namespace Cs3013.Kernel

open Function Cs3013.Library.Slots

section Lineages

variable {g : Tasks} {pid : Int} {l ancestors : List Int}

/-- A task has one chain of parents. -/
theorem Tasks.Lineage.unique (hline : g.Lineage pid l) (hline' : g.Lineage pid ancestors) :
    l = ancestors := by
  induction hline generalizing ancestors with
  | init => exact (lineage_init hline').symm
  | @child pid l hpid _ ih =>
    cases hline' with
    | init => exact absurd rfl hpid
    | child _ hparent => rw [ih hparent]

/-- Every parent on the chain has a shorter chain of its own. -/
theorem Tasks.Lineage.of_mem (hline : g.Lineage pid l) {parent : Int} (hmem : parent ∈ l) :
    ∃ l', g.Lineage parent l' ∧ l'.length < l.length := by
  induction hline with
  | init => cases hmem
  | @child pid l _ hparent ih =>
    rcases List.mem_cons.mp hmem with rfl | hmem
    · exact ⟨l, hparent, Nat.lt_succ_self _⟩
    · obtain ⟨l', hl', hlt⟩ := ih hmem
      exact ⟨l', hl', Nat.lt_succ_of_lt hlt⟩

/-- No parent is met twice. -/
theorem Tasks.Lineage.nodup (hline : g.Lineage pid l) : l.Nodup := by
  induction hline with
  | init => exact List.nodup_nil
  | @child pid l _ hparent ih =>
    refine List.nodup_cons.mpr ⟨fun hmem => ?_, ih⟩
    obtain ⟨l', hl', hlt⟩ := hparent.of_mem hmem
    rw [hparent.unique hl'] at hlt
    exact Nat.lt_irrefl _ hlt

/-- Without a chain up to init the loop over the parents fills its array. -/
theorem climb_endless (hnone : ∀ l, ¬ g.Lineage pid l) {array : Fin 10 → Int} {room anc : Nat}
    (hroom : anc + room = 10) (hpos : 0 < room) :
    climb g room pid anc array = .error .full := by
  induction room generalizing pid anc array with
  | zero => exact absurd hpos (Nat.lt_irrefl 0)
  | succ room ih =>
    have hpid : pid ≠ 1 := by
      rintro rfl
      exact hnone [] .init
    have hparent : ∀ l, ¬ g.Lineage (g.parent pid) l := fun l hl => hnone _ (.child hpid hl)
    rw [climb, if_neg hpid, assign, dif_pos (by omega : anc < 10)]
    show (if anc + 1 = 10 then _ else _) = _
    split_ifs with hlast
    · rfl
    · exact ih hparent (by omega) (by omega)

/-- On any graph the record is filled from a chain of parents, or a loop fills its array. -/
theorem gather_cases (g : Tasks) (pid : Int) (record : Ancestry) :
    (∃ ancestors, g.Lineage pid ancestors ∧ Fits g pid ancestors ∧
      gather g pid record = .ok (filled g pid ancestors record)) ∨
    gather g pid record = .error .full := by
  by_cases hline : ∃ ancestors, g.Lineage pid ancestors
  · obtain ⟨ancestors, hline⟩ := hline
    rw [gather_eq hline]
    by_cases hfits : Fits g pid ancestors
    · rw [if_pos hfits]
      exact .inl ⟨ancestors, hline, hfits, rfl⟩
    · rw [if_neg hfits]
      exact .inr rfl
  · right
    have hpid : pid ≠ 1 := by
      rintro rfl
      exact hline ⟨[], .init⟩
    have hclimb : climb g 10 pid 0 record.ancestors = .error .full :=
      climb_endless (fun l hl => hline ⟨l, hl⟩) rfl (by decide)
    rw [gather, collect_eq (by decide)]
    by_cases hchildren : (g.children pid).length < 100
    · rw [if_pos hchildren]
      show (if pid = 1 then _ else _) = _
      rw [if_neg hpid, collect_eq (by decide), hclimb]
      by_cases hsiblings : (g.children (g.parent pid)).length < 100
      · rw [if_pos hsiblings]
        rfl
      · rw [if_neg hsiblings]
        rfl
    · rw [if_neg hchildren]
      rfl

end Lineages

/-! ## Calls on any graph -/

/-- The slots behind the first entries of each array are as before. -/
structure KeepsRest (g : Tasks) (pid : Int) (chain : List Int) (response record : Ancestry) :
    Prop where
  children : ∀ i, (g.children pid).length ≤ i.val → record.children i = response.children i
  siblings : ∀ i, (g.siblings pid).length ≤ i.val → record.siblings i = response.siblings i
  ancestors : ∀ i, chain.length ≤ i.val → record.ancestors i = response.ancestors i

theorem filled_keepsRest (g : Tasks) (pid : Int) (ancestors : List Int) (response : Ancestry) :
    KeepsRest g pid ancestors response (filled g pid ancestors response) where
  children _ hi := overwrite_of_le hi
  siblings _ hi := overwrite_of_le hi
  ancestors _ hi := overwrite_of_le hi

/-- On any graph the call returns, without a write outside of an array. If it fails, the record of
the user is as before unless the copy to the user has failed; if not, only the entries that have
been collected are new. -/
theorem failed_call_atomic (g : Tasks) (copies : Copies) (target : UInt16)
    (response : Ancestry) :
    ∃ result record, newCs3013Syscall2 g copies target response = some (result, record) ∧
      (result ≠ 0 → record = response ∨
        copies.back = some record ∧ ∃ new, gather g target.toNat response = .ok new) ∧
      (result = 0 → ∃ ancestors, g.Lineage target.toNat ancestors ∧
        KeepsRest g target.toNat ancestors response record) := by
  have hfail : ∀ result : Int, result ≠ 0 → ∃ r record,
      some (result, response) = some (r, record) ∧
      (r ≠ 0 → record = response ∨
        copies.back = some record ∧ ∃ new, gather g target.toNat response = .ok new) ∧
      (r = 0 → ∃ ancestors, g.Lineage target.toNat ancestors ∧
        KeepsRest g target.toNat ancestors response record) :=
    fun result hne => ⟨result, response, rfl, fun _ => .inl rfl, fun hzero => absurd hzero hne⟩
  unfold newCs3013Syscall2
  split_ifs
  · exact hfail efault (by decide)
  · exact hfail efault (by decide)
  · exact hfail 1 (by decide)
  · rcases gather_cases g target.toNat response with ⟨ancestors, hline, -, hgather⟩ | hgather
    · rw [hgather]
      cases hback : copies.back with
      | none =>
        refine ⟨0, _, rfl, fun hne => absurd rfl hne, fun _ => ⟨ancestors, hline, ?_⟩⟩
        exact filled_keepsRest g target.toNat ancestors response
      | some left =>
        refine ⟨efault, left, rfl, fun _ => .inr ⟨rfl, _, rfl⟩, fun hzero => ?_⟩
        exact absurd hzero (by decide)
    · rw [hgather] at hfail ⊢
      exact hfail 1 (by decide)

/-! ## Calls on a process tree -/

section Tree

variable {T : ProcessTree} {copies : Copies} {target : UInt16} {response record : Ancestry}
  {ancestors : List Int}

/-- The other children of the parent. -/
def Tasks.otherChildren (g : Tasks) (pid : Int) : List Int :=
  (g.children (g.parent pid)).filter (· ≠ pid)

/-- The leading entries of the record are the relatives of the task, each of them once, and the
slots behind them are as before. -/
structure Relatives (g : Tasks) (pid : Int) (chain : List Int) (response record : Ancestry) :
    Prop where
  children : record.children = overwrite (g.children pid) response.children
  siblings : record.siblings = overwrite (g.otherChildren pid) response.siblings
  ancestors : record.ancestors = overwrite chain response.ancestors
  once : (g.children pid).Nodup ∧ (g.otherChildren pid).Nodup ∧ chain.Nodup

/-- The arrays begin with the relatives of the task, each of them once, whatever stands behind
them. -/
structure Leading (g : Tasks) (pid : Int) (chain : List Int) (record : Ancestry) : Prop where
  children : g.children pid <+: List.ofFn record.children
  siblings : g.otherChildren pid <+: List.ofFn record.siblings
  ancestors : chain <+: List.ofFn record.ancestors
  once : (g.children pid).Nodup ∧ (g.otherChildren pid).Nodup ∧ chain.Nodup

/-- The task stands behind the other children of its parent, and its slot holds its number. -/
def LastAndThere (g : Tasks) (pid : Int) (response : Ancestry) : Prop :=
  (g.children (g.parent pid)).getLast? = some pid ∧
    ∃ h : (g.children (g.parent pid)).length - 1 < 100, response.siblings ⟨_, h⟩ = pid

instance (g : Tasks) (pid : Int) (response : Ancestry) :
    Decidable (LastAndThere g pid response) := inferInstanceAs (Decidable (_ ∧ _))

/-- The children of the parent without the task. -/
theorem exists_otherChildren (hfound : T.findVpid target.toNat = true)
    (hne : (target.toNat : Int) ≠ 1) : ∃ front back,
      T.children (T.parent target.toNat) = front ++ (target.toNat : Int) :: back ∧
      T.otherChildren target.toNat = front ++ back ∧ (target.toNat : Int) ∉ back := by
  have hmem : (target.toNat : Int) ∈ T.children (T.parent target.toNat) :=
    (T.mem_children _ _).mpr ⟨hfound, hne, rfl⟩
  obtain ⟨front, back, hsplit⟩ := List.append_of_mem hmem
  have hnodup := T.nodup (T.parent target.toNat)
  rw [hsplit] at hnodup
  have hfront : (target.toNat : Int) ∉ front := fun hin =>
    (List.disjoint_of_nodup_append hnodup) hin List.mem_cons_self
  have hback : (target.toNat : Int) ∉ back :=
    (List.nodup_cons.mp (List.nodup_append.mp hnodup).2.1).1
  refine ⟨front, back, hsplit, ?_, hback⟩
  have hkeep : ∀ l : List Int, (target.toNat : Int) ∉ l →
      l.filter (· ≠ (target.toNat : Int)) = l := by
    intro l hl
    apply List.filter_eq_self.mpr
    intro pid hpid
    exact decide_eq_true fun heq => hl (heq ▸ hpid)
  rw [Tasks.otherChildren, hsplit, List.filter_append, List.filter_cons_of_neg (by simp),
    hkeep front hfront, hkeep back hback]

theorem getLast?_eq_iff {front back : List Int} {pid : Int} (hpid : pid ∉ back) :
    (front ++ pid :: back).getLast? = some pid ↔ back = [] := by
  rw [List.getLast?_append_cons]
  cases back with
  | nil => exact ⟨fun _ => rfl, fun _ => rfl⟩
  | cons c back =>
    refine ⟨fun hlast => ?_, nofun⟩
    rw [List.getLast?_cons_cons] at hlast
    exact absurd (List.mem_of_getLast? hlast) hpid

section Filled

variable {front back : List Int}

theorem relatives_once (hline : T.Lineage target.toNat ancestors) :
    (T.children target.toNat).Nodup ∧ (T.otherChildren target.toNat).Nodup ∧ ancestors.Nodup :=
  ⟨T.nodup _, (T.nodup _).filter _, hline.nodup⟩

theorem siblings_split (hne : (target.toNat : Int) ≠ 1)
    (hfits : Fits T.toTasks target.toNat ancestors)
    (hsplit : T.children (T.parent target.toNat) = front ++ (target.toNat : Int) :: back) :
    T.siblings target.toNat = front ++ (target.toNat : Int) :: back ∧
      (front ++ (target.toNat : Int) :: back).length ≤ 100 := by
  have hsiblings : T.siblings target.toNat = front ++ (target.toNat : Int) :: back :=
    (if_neg hne).trans hsplit
  exact ⟨hsiblings, hsiblings ▸ Nat.le_of_lt hfits.2.1⟩

/-- With the slots behind the lists as before, the target is not seen among its siblings only in the
last slot, which held it. -/
theorem filled_relatives_iff (hne : (target.toNat : Int) ≠ 1)
    (hline : T.Lineage target.toNat ancestors) (hfits : Fits T.toTasks target.toNat ancestors)
    (hsplit : T.children (T.parent target.toNat) = front ++ (target.toNat : Int) :: back)
    (hothers : T.otherChildren target.toNat = front ++ back)
    (hback : (target.toNat : Int) ∉ back) :
    Relatives T.toTasks target.toNat ancestors response
        (filled T.toTasks target.toNat ancestors response) ↔
      LastAndThere T.toTasks target.toNat response := by
  obtain ⟨hsiblings, hlength⟩ := siblings_split hne hfits hsplit
  have hlast := overwrite_without (f := response.siblings) hback hlength
  have hthere : LastAndThere T.toTasks target.toNat response ↔ back = [] ∧
      ∃ h : front.length < 100, response.siblings ⟨front.length, h⟩ = (target.toNat : Int) := by
    rw [LastAndThere, hsplit, getLast?_eq_iff hback]
    refine and_congr_right fun hnil => ?_
    rw [hnil, List.length_append, List.length_singleton, Nat.add_sub_cancel]
  rw [hthere, ← hlast, ← hothers, ← hsiblings]
  constructor
  · intro hrelatives
    exact hrelatives.siblings
  · intro heq
    exact ⟨rfl, heq, rfl, relatives_once hline⟩

/-- Where the slots behind the lists do not matter, the target may stand behind its siblings. -/
theorem filled_leading_iff (hne : (target.toNat : Int) ≠ 1)
    (hline : T.Lineage target.toNat ancestors) (hfits : Fits T.toTasks target.toNat ancestors)
    (hsplit : T.children (T.parent target.toNat) = front ++ (target.toNat : Int) :: back)
    (hothers : T.otherChildren target.toNat = front ++ back)
    (hback : (target.toNat : Int) ∉ back) :
    Leading T.toTasks target.toNat ancestors
        (filled T.toTasks target.toNat ancestors response) ↔
      (T.children (T.parent target.toNat)).getLast? = some (target.toNat : Int) := by
  obtain ⟨hsiblings, hlength⟩ := siblings_split hne hfits hsplit
  have hrecord : T.otherChildren target.toNat <+:
      List.ofFn (filled T.toTasks target.toNat ancestors response).siblings ↔ back = [] := by
    rw [filled, hsiblings, hothers, prefix_overwrite_without hback hlength]
  rw [hsplit, getLast?_eq_iff hback, ← hrecord]
  constructor
  · intro hleading
    exact hleading.siblings
  · intro hsame
    exact ⟨prefix_overwrite (Nat.le_of_lt hfits.1), hsame,
      prefix_overwrite (Nat.le_of_lt hfits.2.2), relatives_once hline⟩

end Filled

/-- A call that returns 0 has collected the children and the parents of the target; as its siblings
it has the target as well, which is only right where nothing shows it: behind all others, and in a
slot that held it before, if the slots behind the siblings are to be as before. -/
theorem relatives_iff (hne : (target.toNat : Int) ≠ 1) (hline : T.Lineage target.toNat ancestors)
    (hcall : newCs3013Syscall2 T.toTasks copies target response = some (0, record)) :
    (Relatives T.toTasks target.toNat ancestors response record ↔
      LastAndThere T.toTasks target.toNat response) ∧
    (Leading T.toTasks target.toNat ancestors record ↔
      (T.children (T.parent target.toNat)).getLast? = some (target.toNat : Int)) := by
  obtain ⟨hfound, hfits, rfl⟩ := syscall_success hline hcall
  obtain ⟨front, back, hsplit, hothers, hback⟩ := exists_otherChildren hfound hne
  exact ⟨filled_relatives_iff hne hline hfits hsplit hothers hback,
    filled_leading_iff hne hline hfits hsplit hothers hback⟩

/-- Task 6 is the last child of 3, and its slot holds its number. -/
theorem relatives_there : ∃ record,
    newCs3013Syscall2 family.toTasks allCopied 6
      ⟨fun _ => 0, fun i => if i = 2 then 6 else 0, fun _ => 0⟩ = some (0, record) ∧
    family.children 6 = [7, 8] ∧ family.otherChildren 6 = [4, 5] ∧
    Relatives family.toTasks (6 : UInt16).toNat [3, 1]
      ⟨fun _ => 0, fun i => if i = 2 then 6 else 0, fun _ => 0⟩ record ∧
    Leading family.toTasks (6 : UInt16).toNat [3, 1] record := by
  have hcall : newCs3013Syscall2 family.toTasks allCopied 6
      ⟨fun _ => 0, fun i => if i = 2 then 6 else 0, fun _ => 0⟩ = some (0, _) := rfl
  have hiff := relatives_iff (by decide) family_lineage hcall
  exact ⟨_, hcall, by decide, by decide, hiff.1.mpr (by decide), hiff.2.mpr (by decide)⟩

/-- Init with two children. -/
def twoChildren : ProcessTree := treeOf 3 (fun _ => 1) (by decide) (by omega)

/-- The first of two children is collected as its own sibling, ahead of the other one. -/
theorem own_sibling : ∃ record,
    newCs3013Syscall2 twoChildren.toTasks allCopied 2 ⟨fun _ => 0, fun _ => 0, fun _ => 0⟩ =
      some (0, record) ∧ record.siblings 0 = 2 ∧ twoChildren.otherChildren 2 = [3] ∧
    ¬ Relatives twoChildren.toTasks 2 [1] ⟨fun _ => 0, fun _ => 0, fun _ => 0⟩ record ∧
    ¬ Leading twoChildren.toTasks 2 [1] record := by
  refine ⟨_, rfl, rfl, by decide, fun hrelatives => ?_, fun hleading => ?_⟩
  · have hslot := congrFun hrelatives.siblings 0
    revert hslot
    decide
  · have hstart := hleading.siblings
    revert hstart
    decide

/-- The lists have no more entries than their arrays have slots. -/
def Capacity (g : Tasks) (pid : Int) (chain : List Int) : Prop :=
  (g.children pid).length ≤ 100 ∧
    (pid ≠ 1 → (g.children (g.parent pid)).length ≤ 100 ∧ chain.length ≤ 10)

/-- A list has as many entries as its array has slots. -/
def Brimful (g : Tasks) (pid : Int) (chain : List Int) : Prop :=
  (g.children pid).length = 100 ∨
    (pid ≠ 1 ∧ ((g.children (g.parent pid)).length = 100 ∨ chain.length = 10))

instance (g : Tasks) (pid : Int) (chain : List Int) : Decidable (Capacity g pid chain) :=
  inferInstanceAs (Decidable (_ ∧ _))

instance (g : Tasks) (pid : Int) (chain : List Int) : Decidable (Brimful g pid chain) :=
  inferInstanceAs (Decidable (_ ∨ _))

theorem fits_iff {g : Tasks} {pid : Int} {chain : List Int} (hline : g.Lineage pid chain) :
    Fits g pid chain ↔ Capacity g pid chain ∧ ¬ Brimful g pid chain := by
  unfold Fits Capacity Brimful Tasks.siblings
  by_cases hpid : pid = 1
  · subst hpid
    obtain rfl := lineage_init hline
    simp
    omega
  · simp [hpid]
    omega

/-- An existing target gets 0 exactly when its lists leave a slot free. -/
theorem syscall_zero_iff (hfound : T.findVpid target.toNat = true)
    (hline : T.Lineage target.toNat ancestors) :
    (∃ record, newCs3013Syscall2 T.toTasks allCopied target response = some (0, record)) ↔
      Fits T.toTasks target.toNat ancestors := by
  constructor
  · intro hzero
    obtain ⟨record, hcall⟩ := hzero
    exact (syscall_success hline hcall).2.1
  · intro hfits
    refine ⟨filled T.toTasks target.toNat ancestors response, ?_⟩
    rw [newCs3013Syscall2, if_neg (by decide), if_neg (by decide), hfound, if_neg (by decide),
      gather_eq hline, if_pos hfits]
    rfl

/-- The capacity of the arrays is respected exactly, unless all lists fit and one of them fills its
array to the last slot. -/
theorem capacity_exact_iff (hfound : T.findVpid target.toNat = true)
    (hline : T.Lineage target.toNat ancestors) :
    ((∃ record, newCs3013Syscall2 T.toTasks allCopied target response = some (0, record)) ↔
        Capacity T.toTasks target.toNat ancestors) ↔
      (Capacity T.toTasks target.toNat ancestors →
        ¬ Brimful T.toTasks target.toNat ancestors) := by
  rw [syscall_zero_iff hfound hline, fits_iff hline]
  tauto

end Tree

/-- All lists of task 6 fit, and none fills its array. -/
theorem capacity_exact_family :
    (∃ record, newCs3013Syscall2 family.toTasks allCopied 6
      ⟨fun _ => 0, fun _ => 0, fun _ => 0⟩ = some (0, record)) ↔
    Capacity family.toTasks (6 : UInt16).toNat [3, 1] := by
  have hfound : family.findVpid (6 : UInt16).toNat = true := by decide
  exact (capacity_exact_iff hfound family_lineage).mpr fun _ => by decide

/-- The tasks 1 to `n` in a line. -/
def lineOf (n : Nat) (hn : 1 ≤ n) : ProcessTree := treeOf n (· - 1) hn (by omega)

/-- Task 11 of a line has ten parents, and the array has ten slots. -/
theorem ten_parents_rejected : ∃ chain,
    (lineOf 11 (by decide)).Lineage (11 : UInt16).toNat chain ∧
    Capacity (lineOf 11 (by decide)).toTasks (11 : UInt16).toNat chain ∧
    newCs3013Syscall2 (lineOf 11 (by decide)).toTasks allCopied 11
      ⟨fun _ => 0, fun _ => 0, fun _ => 0⟩ = some (1, ⟨fun _ => 0, fun _ => 0, fun _ => 0⟩) := by
  refine ⟨[10, 9, 8, 7, 6, 5, 4, 3, 2, 1], ?_, by decide, rfl⟩
  iterate 10 apply Tasks.Lineage.child (by decide)
  exact .init

end Cs3013.Kernel
