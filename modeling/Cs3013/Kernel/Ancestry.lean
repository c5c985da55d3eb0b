import Cs3013.Library.Slots

/-!
# The ancestry record between the system call and its user

`new_cs3013_syscall2` of `kernsysinfo.c` copies the user's record in, writes the process numbers it
finds over the first cells of the three arrays, and copies the record back. `procAncestry.c`
prints each array up to the first 0. Nothing writes that 0: it stands in the record before the
call, or the user reads on.
-/
namespace Cs3013.Kernel

open Function Cs3013.Library.Slots

/-- `struct ancestry`. -/
structure Ancestry where
  ancestors : Fin 10 → Int
  siblings : Fin 100 → Int
  children : Fin 100 → Int

/-- The tasks of the kernel by their process numbers: whether `find_vpid` finds one, its `parent`,
and its list `children`. -/
structure Tasks where
  findVpid : Int → Bool
  parent : Int → Int
  children : Int → List Int

/-- What `copy_from_user` and `copy_to_user` do: whether the two copies into the kernel succeed,
and what a copy back that fails leaves in the user's record. -/
structure Copies where
  target : Bool
  record : Bool
  back : Option Ancestry

/-- What ends a loop early: the array has been filled, or an index outside of it. -/
inductive Stop where
  | full
  | outside
  deriving DecidableEq, Repr

/-- EFAULT. -/
def efault : Int := 14

/-- `array[k] = pid`. -/
def assign {n : Nat} (array : Fin n → Int) (k : Nat) (pid : Int) : Except Stop (Fin n → Int) :=
  if h : k < n then .ok (update array ⟨k, h⟩ pid) else .error .outside

/-- The loops over the children and the siblings, from index `k` on. -/
def collect {n : Nat} : (Fin n → Int) → Nat → List Int → Except Stop (Fin n → Int)
  | array, _, [] => .ok array
  | array, k, pid :: pids => do
    let array ← assign array k pid
    if k + 1 = n then .error .full else collect array (k + 1) pids

/-- The loop over the parents. The first argument counts the free cells, which bound the loop. -/
def climb (g : Tasks) : Nat → Int → Nat → (Fin 10 → Int) → Except Stop (Fin 10 → Int)
  | 0, _, _, _ => .error .outside
  | room + 1, pid, anc, array =>
    if pid = 1 then
      .ok array
    else do
      let array ← assign array anc (g.parent pid)
      if anc + 1 = 10 then .error .full else climb g room (g.parent pid) (anc + 1) array

/-- The record as it is filled before it is copied back. -/
def gather (g : Tasks) (target : Int) (record : Ancestry) : Except Stop Ancestry := do
  let children ← collect record.children 0 (g.children target)
  if target = 1 then
    return { record with children }
  let siblings ← collect record.siblings 0 (g.children (g.parent target))
  let ancestors ← climb g 10 target 0 record.ancestors
  return ⟨ancestors, siblings, children⟩

/-- The value returned and the user's record afterwards; `none` for a write outside of an array. -/
def newCs3013Syscall2 (g : Tasks) (copies : Copies) (targetPid : UInt16) (response : Ancestry) :
    Option (Int × Ancestry) :=
  if copies.target = false then
    some (efault, response)
  else if copies.record = false then
    some (efault, response)
  else if g.findVpid targetPid.toNat = false then
    some (1, response)
  else
    match gather g targetPid.toNat response, copies.back with
    | .ok record, none => some (0, record)
    | .ok _, some left => some (efault, left)
    | .error .full, _ => some (1, response)
    | .error .outside, _ => none

/-- A printing loop on the cells of its array; `none` when it reads behind the last one. The test
on `i` stands behind that read. -/
def printed : List Int → Option (List Int)
  | [] => none
  | pid :: cells => if pid = 0 then some [] else (printed cells).map (pid :: ·)

structure Output where
  result : Int
  children : List Int
  siblings : List Int
  ancestors : List Int
  deriving DecidableEq, Repr

/-- `main` of `procAncestry.c`; `response` is what `malloc` has returned. -/
def procAncestry (g : Tasks) (copies : Copies) (val : UInt16) (response : Ancestry) :
    Option Output := do
  let (result, response) ← newCs3013Syscall2 g copies val response
  let children ← printed (List.ofFn response.children)
  let siblings ← printed (List.ofFn response.siblings)
  let ancestors ← printed (List.ofFn response.ancestors)
  return ⟨result, children, siblings, ancestors⟩

/-! ## Process trees -/

/-- The list of the parents of a task up to init. -/
inductive Tasks.Lineage (g : Tasks) : Int → List Int → Prop
  | init : Lineage g 1 []
  | child {pid : Int} {l : List Int} (hpid : pid ≠ 1) (hparent : Lineage g (g.parent pid) l) :
      Lineage g pid (g.parent pid :: l)

/-- The tasks below init: every one has a positive number and a chain of parents up to init, and
the lists of children say the same as the parents. -/
structure ProcessTree extends Tasks where
  init : findVpid 1 = true
  pos : ∀ pid, findVpid pid = true → 0 < pid
  parent_found : ∀ pid, findVpid pid = true → pid ≠ 1 → findVpid (parent pid) = true
  lineage : ∀ pid, findVpid pid = true → ∃ l, toTasks.Lineage pid l
  mem_children : ∀ pid c, c ∈ children pid ↔ findVpid c = true ∧ c ≠ 1 ∧ parent c = pid
  nodup : ∀ pid, (children pid).Nodup

/-- The siblings that the system call collects: init has none, another task is one of its own. -/
def Tasks.siblings (g : Tasks) (pid : Int) : List Int :=
  if pid = 1 then [] else g.children (g.parent pid)

/-- There is a cell behind the first `k`, and it holds 0. -/
def Ends {n : Nat} (array : Fin n → Int) (k : Nat) : Prop := ∃ h : k < n, array ⟨k, h⟩ = 0

instance {n : Nat} (array : Fin n → Int) (k : Nat) : Decidable (Ends array k) :=
  inferInstanceAs (Decidable (∃ _, _))

section Kernel

variable {n : Nat} {g : Tasks} {pid : Int} {l pids : List Int} {array : Fin n → Int}

theorem assign_overwrite (h : l.length < n) :
    assign (overwrite l array) l.length pid = .ok (overwrite (l ++ [pid]) array) := by
  rw [assign, dif_pos h, update_overwrite h]

/-- The loop ends early as soon as the last cell is written, also when nothing is left. -/
theorem collect_overwrite (h : l.length < n) : collect (overwrite l array) l.length pids =
    if (l ++ pids).length < n then .ok (overwrite (l ++ pids) array) else .error .full := by
  induction pids generalizing l with
  | nil => rw [List.append_nil, if_pos h, collect]
  | cons pid pids ih =>
    rw [collect, assign_overwrite h]
    show (if l.length + 1 = n then _ else _) = _
    by_cases hlast : l.length + 1 = n
    · rw [if_pos hlast, if_neg (by simp; omega)]
    · have hnext := ih (l := l ++ [pid]) (by simp; omega)
      rw [List.length_append, List.length_singleton, List.append_assoc] at hnext
      rw [if_neg hlast, hnext]
      rfl

theorem collect_eq (hn : 0 < n) (array : Fin n → Int) (pids : List Int) : collect array 0 pids =
    if pids.length < n then .ok (overwrite pids array) else .error .full :=
  collect_overwrite (l := []) hn

/-- The loop over the parents writes the lineage. -/
theorem climb_overwrite {ancestors : List Int} (hline : g.Lineage pid ancestors)
    {array : Fin 10 → Int} {room : Nat} (hroom : l.length + room = 10) (hpos : 0 < room) :
    climb g room pid l.length (overwrite l array) =
      if (l ++ ancestors).length < 10 then .ok (overwrite (l ++ ancestors) array)
      else .error .full := by
  induction hline generalizing l room with
  | init =>
    obtain ⟨room, rfl⟩ := Nat.exists_eq_succ_of_ne_zero (Nat.ne_of_gt hpos)
    rw [climb, if_pos rfl, List.append_nil, if_pos (by omega)]
  | @child pid ancestors hpid _ ih =>
    obtain ⟨room, rfl⟩ := Nat.exists_eq_succ_of_ne_zero (Nat.ne_of_gt hpos)
    rw [climb, if_neg hpid, assign_overwrite (by omega)]
    show (if l.length + 1 = 10 then _ else _) = _
    by_cases hlast : l.length + 1 = 10
    · rw [if_pos hlast, if_neg (by simp; omega)]
    · have hroom' : (l ++ [g.parent pid]).length + room = 10 := by
        simp
        omega
      have hnext := ih hroom' (by omega)
      rw [List.length_append, List.length_singleton, List.append_assoc] at hnext
      rw [if_neg hlast, hnext]
      rfl

theorem climb_eq {ancestors : List Int} (hline : g.Lineage pid ancestors) (array : Fin 10 → Int) :
    climb g 10 pid 0 array =
      if ancestors.length < 10 then .ok (overwrite ancestors array) else .error .full :=
  climb_overwrite (l := []) hline rfl (by decide)

end Kernel

section Record

variable {g : Tasks} {T : ProcessTree} {copies : Copies} {target : UInt16} {pid : Int}
  {response record : Ancestry} {ancestors : List Int}

/-- The three lists leave a cell of their array free. -/
def Fits (g : Tasks) (pid : Int) (ancestors : List Int) : Prop :=
  (g.children pid).length < 100 ∧ (g.siblings pid).length < 100 ∧ ancestors.length < 10

instance : Decidable (Fits g pid ancestors) := inferInstanceAs (Decidable (_ ∧ _))

/-- The lists over the old cells. -/
def filled (g : Tasks) (pid : Int) (ancestors : List Int) (record : Ancestry) : Ancestry where
  ancestors := overwrite ancestors record.ancestors
  siblings := overwrite (g.siblings pid) record.siblings
  children := overwrite (g.children pid) record.children

theorem Tasks.siblings_init : g.siblings 1 = [] := if_pos rfl

theorem lineage_init (hline : g.Lineage 1 ancestors) : ancestors = [] := by
  cases hline with
  | init => rfl
  | child hpid _ => exact absurd rfl hpid

/-- The system call fills the record exactly if the lists fit. -/
theorem gather_eq (hline : g.Lineage pid ancestors) (record : Ancestry) : gather g pid record =
    if Fits g pid ancestors then .ok (filled g pid ancestors record) else .error .full := by
  rw [gather, collect_eq (by decide)]
  by_cases hchildren : (g.children pid).length < 100
  · rw [if_pos hchildren]
    by_cases hpid : pid = 1
    · subst hpid
      obtain rfl := lineage_init hline
      have hfits : Fits g 1 [] := ⟨hchildren, by rw [Tasks.siblings_init]; decide, by decide⟩
      rw [if_pos hfits, filled, Tasks.siblings_init, overwrite_nil, overwrite_nil]
      rfl
    · have hsiblings : g.siblings pid = g.children (g.parent pid) := if_neg hpid
      show (if pid = 1 then _ else _) = _
      rw [if_neg hpid, collect_eq (by decide), climb_eq hline, filled, hsiblings]
      by_cases hparent : (g.children (g.parent pid)).length < 100
      · by_cases hup : ancestors.length < 10
        · have hfits : Fits g pid ancestors := ⟨hchildren, hsiblings ▸ hparent, hup⟩
          rw [if_pos hparent, if_pos hup, if_pos hfits]
          rfl
        · have hfits : ¬ Fits g pid ancestors := fun hfits => hup hfits.2.2
          rw [if_pos hparent, if_neg hup, if_neg hfits]
          rfl
      · have hfits : ¬ Fits g pid ancestors := fun hfits => hparent (hsiblings ▸ hfits.2.1)
        rw [if_neg hparent, if_neg hfits]
        rfl
  · rw [if_neg hchildren, if_neg fun hfits => hchildren hfits.1]
    rfl

/-- What a call that returns 0 has done. -/
theorem syscall_success (hline : g.Lineage target.toNat ancestors)
    (hcall : newCs3013Syscall2 g copies target response = some (0, record)) :
    g.findVpid target.toNat = true ∧ Fits g target.toNat ancestors ∧
      record = filled g target.toNat ancestors response := by
  unfold newCs3013Syscall2 at hcall
  split_ifs at hcall with htarget hrecord hfound
  · cases hcall
  · cases hcall
  · cases hcall
  · refine ⟨Bool.not_eq_false _ ▸ hfound, ?_⟩
    rw [gather_eq hline] at hcall
    by_cases hfits : Fits g target.toNat ancestors
    · rw [if_pos hfits] at hcall
      cases hback : copies.back with
      | none =>
        rw [hback] at hcall
        obtain ⟨-, rfl⟩ := Prod.mk.inj (Option.some_inj.mp hcall)
        exact ⟨hfits, rfl⟩
      | some left =>
        rw [hback] at hcall
        cases hcall
    · rw [if_neg hfits] at hcall
      cases copies.back <;> cases hcall

end Record

section User

variable {n : Nat} {l cells : List Int} {array : Fin n → Int}

theorem printed_append (hl : (0 : Int) ∉ l) :
    printed (l ++ cells) = (printed cells).map (l ++ ·) := by
  induction l with
  | nil => exact Option.map_id'.symm
  | cons pid l ih =>
    rw [List.mem_cons, not_or] at hl
    rw [List.cons_append, printed, if_neg (Ne.symm hl.1), ih hl.2, Option.map_map]
    rfl

theorem printed_eq_nil : printed cells = some [] ↔ cells.head? = some 0 := by
  cases cells with
  | nil => exact ⟨nofun, nofun⟩
  | cons pid cells =>
    rw [printed, List.head?_cons, Option.some_inj]
    split_ifs with hpid
    · exact ⟨fun _ => hpid, fun _ => rfl⟩
    · refine ⟨fun hmap => ?_, fun hzero => absurd hzero hpid⟩
      obtain ⟨_, -, hcons⟩ := Option.map_eq_some_iff.mp hmap
      cases hcons

theorem head?_drop_ofFn {k : Nat} : ((List.ofFn array).drop k).head? = some 0 ↔ Ends array k := by
  rw [List.head?_drop, List.getElem?_eq_some_iff]
  constructor
  · intro hk
    obtain ⟨hlt, hzero⟩ := hk
    rw [List.getElem_ofFn] at hzero
    exact ⟨by simpa using hlt, hzero⟩
  · intro hk
    obtain ⟨hlt, hzero⟩ := hk
    exact ⟨by simpa using hlt, by rw [List.getElem_ofFn]; exact hzero⟩

/-- A list written over the first cells is printed back exactly if a 0 stands behind it. -/
theorem printed_overwrite (hl : (0 : Int) ∉ l) (hn : l.length ≤ n) :
    printed (List.ofFn (overwrite l array)) = some l ↔ Ends array l.length := by
  rw [ofFn_overwrite hn, printed_append hl, ← head?_drop_ofFn, ← printed_eq_nil]
  constructor
  · intro hmap
    obtain ⟨rest, hrest, hl⟩ := Option.map_eq_some_iff.mp hmap
    rw [List.append_right_eq_self.mp hl] at hrest
    exact hrest
  · intro hnil
    rw [hnil, Option.map_some, List.append_nil]

end User

section Agreement

variable {T : ProcessTree} {copies : Copies} {target : UInt16} {response record : Ancestry}
  {ancestors : List Int}

theorem zero_notMem_children (pid : Int) : (0 : Int) ∉ T.children pid := by
  intro hmem
  have hpos := T.pos 0 ((T.mem_children pid 0).mp hmem).1
  omega

theorem zero_notMem_siblings (pid : Int) : (0 : Int) ∉ T.siblings pid := by
  unfold Tasks.siblings
  split_ifs
  · exact List.not_mem_nil
  · exact zero_notMem_children _

theorem zero_notMem_lineage {pid : Int} (hpid : T.findVpid pid = true)
    (hline : T.Lineage pid ancestors) : (0 : Int) ∉ ancestors := by
  induction hline with
  | init => exact List.not_mem_nil
  | @child pid l hne _ ih =>
    have hparent := T.parent_found pid hpid hne
    have hpos := T.pos _ hparent
    intro hmem
    rcases List.mem_cons.mp hmem with hzero | hmem
    · omega
    · exact ih hparent hmem

/-- Where the system call returns 0, the user prints exactly the lists it has collected, without a
read outside of an array, if and only if each array of the record held a 0 behind its list before
the call. -/
theorem record_read_back_iff (hline : T.Lineage target.toNat ancestors)
    (hcall : newCs3013Syscall2 T.toTasks copies target response = some (0, record)) :
    procAncestry T.toTasks copies target response =
        some ⟨0, T.children target.toNat, T.siblings target.toNat, ancestors⟩ ↔
      Ends response.children (T.children target.toNat).length ∧
        Ends response.siblings (T.siblings target.toNat).length ∧
        Ends response.ancestors ancestors.length := by
  obtain ⟨hfound, hfits, rfl⟩ := syscall_success hline hcall
  rw [← printed_overwrite (zero_notMem_children _) (Nat.le_of_lt hfits.1),
    ← printed_overwrite (zero_notMem_siblings _) (Nat.le_of_lt hfits.2.1),
    ← printed_overwrite (zero_notMem_lineage hfound hline) (Nat.le_of_lt hfits.2.2)]
  unfold procAncestry
  rw [hcall]
  constructor
  · intro houtput
    simp only [Option.bind_eq_bind, Option.bind_some, Option.bind_eq_some_iff, Option.pure_def,
      Option.some_inj, Output.mk.injEq] at houtput
    obtain ⟨_, hchildren, _, hsiblings, _, hancestors, -, rfl, rfl, rfl⟩ := houtput
    exact ⟨hchildren, hsiblings, hancestors⟩
  · intro hlists
    obtain ⟨hchildren, hsiblings, hancestors⟩ := hlists
    simp only [Option.bind_eq_bind, Option.bind_some, filled, hchildren, hsiblings, hancestors,
      Option.pure_def]

end Agreement

/-- The tasks 1 to `n`, where every other task than 1 is younger than its parent. -/
def treeOf (n : Nat) (parent : Int → Int) (hn : 1 ≤ n)
    (hparent : ∀ pid : Int, 1 < pid → pid ≤ n → 1 ≤ parent pid ∧ parent pid < pid) :
    ProcessTree where
  findVpid pid := decide (1 ≤ pid ∧ pid ≤ n)
  parent := parent
  children pid := ((List.range (n - 1)).map fun k : Nat => (k : Int) + 2).filter (parent · = pid)
  init := decide_eq_true ⟨le_rfl, by omega⟩
  pos pid hpid := by
    have hrange := of_decide_eq_true hpid
    omega
  parent_found pid hpid hne := by
    have hrange := of_decide_eq_true hpid
    have hless := hparent pid (by omega) hrange.2
    exact decide_eq_true (by omega)
  lineage pid hpid := by
    have hrange := of_decide_eq_true hpid
    obtain ⟨k, hk⟩ : ∃ k : Nat, pid = k := ⟨pid.toNat, by omega⟩
    induction k using Nat.strongRecOn generalizing pid with
    | ind k ih =>
      by_cases hone : pid = 1
      · subst hone
        exact ⟨[], .init⟩
      · have hless := hparent pid (by omega) hrange.2
        have hfound : 1 ≤ parent pid ∧ parent pid ≤ n := by omega
        obtain ⟨l, hl⟩ := ih (parent pid).toNat (by omega) (parent pid) (decide_eq_true hfound)
          hfound (by omega)
        exact ⟨_, .child hone hl⟩
  mem_children pid c := by
    rw [List.mem_filter, List.mem_map, decide_eq_true_eq, decide_eq_true_eq, ← and_assoc]
    refine and_congr_left fun _ => ⟨?_, fun hc => ⟨(c - 2).toNat, ?_, by omega⟩⟩
    · rintro ⟨k, hk, rfl⟩
      have hlt := List.mem_range.mp hk
      omega
    · exact List.mem_range.mpr (by omega)
  nodup pid := by
    refine (List.nodup_range.map fun k j hkj => ?_).filter _
    have heq : (k : Int) + 2 = j + 2 := hkj
    omega

/-- Init with one child. -/
def oneChild : ProcessTree := treeOf 2 (fun _ => 1) (by decide) (by omega)

/-- Three generations below init: 2 and 3, of 3 the tasks 4, 5 and 6, and of 6 the tasks 7
and 8. -/
def family : ProcessTree :=
  treeOf 8 (fun pid => if pid ≤ 3 then 1 else if pid ≤ 6 then 3 else 6) (by decide) fun pid => by
    split_ifs
    all_goals omega

theorem family_lineage : family.Lineage (6 : UInt16).toNat [3, 1] :=
  .child (by decide) (.child (by decide) .init)

/-- All copies succeed. -/
def allCopied : Copies := ⟨true, true, none⟩

/-- A record of zeros, as `calloc` would give it. -/
theorem record_read_back_zeros : procAncestry family.toTasks allCopied 6
    ⟨fun _ => 0, fun _ => 0, fun _ => 0⟩ = some ⟨0, [7, 8], [4, 5, 6], [3, 1]⟩ :=
  (record_read_back_iff family_lineage rfl).mpr (by decide)

/-- A record of ones: the call returns 0, and the user reads behind the end of `children`. -/
theorem record_read_on : ∃ record,
    newCs3013Syscall2 oneChild.toTasks allCopied 2 ⟨fun _ => 1, fun _ => 1, fun _ => 1⟩ =
      some (0, record) ∧
    procAncestry oneChild.toTasks allCopied 2 ⟨fun _ => 1, fun _ => 1, fun _ => 1⟩ = none :=
  ⟨_, rfl, by decide +kernel⟩

end Cs3013.Kernel
