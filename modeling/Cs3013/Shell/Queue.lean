import Cs3013.Shell.Background

/-!
# Runs of the background queue

Calls of `addrunning` and `removebackground` in any order, beside the list of the processes that
have been added and not removed. The array stays the queue of these processes as long as only the
last one is removed, and it stays a faithful set of them as long as each removal leaves the last
slot free.
-/
namespace Cs3013.Shell

open Function Cs3013.Library.Slots Cs3013.Library.Transition

inductive Request where
  | add (pid : Int)
  | remove (pid : Int)
  deriving DecidableEq, Repr

/-- `live` lists the processes that were given a slot and not removed, in the order of their
launch. -/
structure Queue where
  running : Running
  live : List Int

/-- A process added has a positive number that no live process has. -/
def Queue.step (s : Queue) : Request → Option Queue
  | .add pid =>
    if 0 < pid ∧ pid ∉ s.live then
      some ⟨(addrunning pid s.running).2,
        if (addrunning pid s.running).1 = -1 then s.live else s.live ++ [pid]⟩
    else
      none
  | .remove pid => (removebackground pid s.running).map fun running => ⟨running, s.live.erase pid⟩

def background : System Queue Request where
  init s := s = ⟨fun _ => 0, []⟩
  step s c s' := s.step c = some s'

/-- The live processes in their order from index 0 on, and zeros behind them. -/
def Queue.InOrder (s : Queue) : Prop := s.running = packed 20 0 s.live

/-- Every live process stands in exactly one slot, and nothing else in any. -/
structure Tracks (running : Running) (live : List Int) : Prop where
  once : ∀ pid ∈ live, ∃! i, running i = pid
  only : ∀ i, running i ≠ 0 → running i ∈ live

/-- A removal takes the process launched last, or none while there is a free slot. -/
def TakesLast (s : Queue) : Request → Prop
  | .add _ => True
  | .remove pid => pid ∉ s.live ∧ s.live.length < 20 ∨ s.live.getLast? = some pid

/-- A removal finds the last slot free, or frees it. -/
def FreesLast (s : Queue) : Request → Prop
  | .add _ => True
  | .remove pid => s.running 19 = 0 ∨ s.running 19 = pid

instance (s : Queue) (c : Request) : Decidable (TakesLast s c) :=
  match c with
  | .add _ => inferInstanceAs (Decidable True)
  | .remove _ => inferInstanceAs (Decidable (_ ∧ _ ∨ _))

instance (s : Queue) (c : Request) : Decidable (FreesLast s c) :=
  match c with
  | .add _ => inferInstanceAs (Decidable True)
  | .remove _ => inferInstanceAs (Decidable (_ ∨ _))

/-- The numbers of the live processes. -/
structure Queue.Sane (s : Queue) : Prop where
  nodup : s.live.Nodup
  pos : ∀ pid ∈ s.live, 0 < pid

section Steps

variable {s s' : Queue} {c : Request} {pid : Int}

/-- What a step can be. -/
theorem queue_cases (h : background.step s c s') :
    (∃ pid i, c = .add pid ∧ 0 < pid ∧ pid ∉ s.live ∧ s.running i = 0 ∧
      (∀ j < i, s.running j ≠ 0) ∧ s' = ⟨update s.running i pid, s.live ++ [pid]⟩) ∨
    (∃ pid, c = .add pid ∧ (∀ i, s.running i ≠ 0) ∧ s' = s) ∨
    (∃ pid r, c = .remove pid ∧ removebackground pid s.running = some r ∧
      s' = ⟨r, s.live.erase pid⟩) := by
  have hstep : s.step c = some s' := h
  cases c with
  | add pid =>
    obtain ⟨⟨hpos, hfresh⟩, hs'⟩ := Option.ite_none_right_eq_some.mp hstep
    obtain rfl := Option.some_inj.mp hs'
    obtain ⟨i, hzero, hbefore, hadd⟩ | ⟨hfull, hadd⟩ := addrunning_cases pid s.running
    · refine .inl ⟨pid, i, rfl, hpos, hfresh, hzero, hbefore, ?_⟩
      have hindex : ¬ (i.val : Int) = -1 := by omega
      rw [hadd, if_neg hindex]
    · refine .inr (.inl ⟨pid, rfl, hfull, ?_⟩)
      rw [hadd, if_pos rfl]
  | remove pid =>
    obtain ⟨r, hr, rfl⟩ := Option.map_eq_some_iff.mp hstep
    exact .inr (.inr ⟨pid, r, rfl, hr, rfl⟩)

theorem Queue.Sane.step (hs : s.Sane) (h : background.step s c s') : s'.Sane := by
  obtain ⟨pid, i, rfl, hpos, hfresh, -, -, rfl⟩ | ⟨pid, rfl, -, rfl⟩ | ⟨pid, r, rfl, -, rfl⟩ :=
    queue_cases h
  · refine ⟨List.nodup_append_comm.mp (List.nodup_cons.mpr ⟨hfresh, hs.nodup⟩), fun q hq => ?_⟩
    rcases List.mem_append.mp hq with hold | hnew
    · exact hs.pos q hold
    · rw [List.mem_singleton.mp hnew]
      exact hpos
  · exact hs
  · exact ⟨hs.nodup.erase pid, fun q hq => hs.pos q (List.mem_of_mem_erase hq)⟩

theorem Queue.Sane.zero_notMem (hs : s.Sane) : (0 : Int) ∉ s.live :=
  fun hzero => absurd (hs.pos 0 hzero) (by decide)

end Steps

/-! ## Every process once -/

section Tracking

variable {s s' : Queue} {c : Request} {pid : Int} {r : Running}

theorem Tracks.add {i : Fin 20} (hs : s.Sane) (ht : Tracks s.running s.live) (hpos : 0 < pid)
    (hfresh : pid ∉ s.live) (hzero : s.running i = 0) :
    Tracks (update s.running i pid) (s.live ++ [pid]) where
  once q hq := by
    rcases List.mem_append.mp hq with hold | hnew
    · obtain ⟨j, hj, hunique⟩ := ht.once q hold
      have hqpos := hs.pos q hold
      have hji : j ≠ i := by
        intro heq
        subst heq
        omega
      have hqpid : q ≠ pid := fun heq => hfresh (heq ▸ hold)
      refine ⟨j, (update_of_ne hji pid s.running).trans hj, fun k hk => ?_⟩
      by_cases hki : k = i
      · subst hki
        exact absurd ((update_self k pid s.running).symm.trans hk).symm hqpid
      · exact hunique k ((update_of_ne hki pid s.running).symm.trans hk)
    · obtain rfl := List.mem_singleton.mp hnew
      refine ⟨i, update_self i q s.running, fun k hk => ?_⟩
      by_contra hki
      have hold : s.running k = q := (update_of_ne hki q s.running).symm.trans hk
      exact hfresh (hold ▸ ht.only k (by omega))
  only k hk := by
    by_cases hki : k = i
    · subst hki
      rw [update_self]
      exact List.mem_append_right s.live List.mem_cons_self
    · rw [update_of_ne hki] at hk ⊢
      exact List.mem_append_left [pid] (ht.only k hk)

theorem Tracks.cleared (hs : s.Sane) (ht : Tracks s.running s.live) (pid : Int) :
    Tracks (cleared pid s.running) (s.live.erase pid) where
  once q hq := by
    obtain ⟨hne, hlive⟩ := (hs.nodup.mem_erase_iff).mp hq
    have hqpos := hs.pos q hlive
    obtain ⟨j, hj, hunique⟩ := ht.once q hlive
    exact ⟨j, (cleared_eq_iff (by omega)).mpr ⟨hj, hne⟩,
      fun k hk => hunique k ((cleared_eq_iff (by omega)).mp hk).1⟩
  only k hk := by
    obtain ⟨hrunning, hne⟩ := (cleared_eq_iff hk).mp rfl
    rw [← hrunning] at hk hne ⊢
    exact (hs.nodup.mem_erase_iff).mpr ⟨hne, ht.only k hk⟩

/-- A removal keeps track exactly if it leaves the last slot free. -/
theorem Tracks.remove_iff (hs : s.Sane) (ht : Tracks s.running s.live) (pid : Int) :
    (∃ r, removebackground pid s.running = some r ∧ Tracks r (s.live.erase pid)) ↔
      FreesLast s (.remove pid) := by
  constructor
  · intro hkept
    obtain ⟨r, hr, hr'⟩ := hkept
    by_contra hbad
    have hlast : Shell.cleared pid s.running 19 ≠ 0 :=
      fun hzero => hbad (cleared_eq_zero_iff.mp hzero)
    obtain ⟨hcopy, htwice⟩ := removebackground_twice hlast hr
    obtain ⟨j, -, hunique⟩ := hr'.once _ (hr'.only 18 (by rw [hcopy]; exact hlast))
    have hsame := (hunique 18 rfl).trans (hunique 19 htwice.symm).symm
    exact absurd hsame (by decide)
  · intro hgood
    exact ⟨_, removebackground_free (cleared_eq_zero_iff.mpr hgood), ht.cleared hs pid⟩

theorem Tracks.step (hs : s.Sane) (ht : Tracks s.running s.live) (hgood : FreesLast s c)
    (h : background.step s c s') : Tracks s'.running s'.live := by
  obtain ⟨pid, i, rfl, hpos, hfresh, hzero, -, rfl⟩ | ⟨pid, rfl, -, rfl⟩ | ⟨pid, r, rfl, hr, rfl⟩ :=
    queue_cases h
  · exact ht.add hs hpos hfresh hzero
  · exact ht
  · obtain ⟨r', hr', htracks⟩ := (ht.remove_iff hs pid).mpr hgood
    obtain rfl := Option.some_inj.mp (hr.symm.trans hr')
    exact htracks

end Tracking

/-! ## The order of the launches -/

section Order

variable {s s' : Queue} {c : Request} {pid : Int} {l : List Int}

/-- The array holds at most as many processes as it has slots. -/
structure Queue.Packed (s : Queue) : Prop extends s.Sane where
  order : s.InOrder
  room : s.live.length ≤ 20

theorem packed_full (h : 20 ≤ l.length) (hzero : (0 : Int) ∉ l) (i : Fin 20) :
    packed 20 0 l i ≠ 0 := by
  intro hi
  have hle := (packed_eq_blank_iff hzero).mp hi
  omega

theorem cleared_packed (h : pid ∉ l) : cleared pid (packed 20 0 l) = packed 20 0 l := by
  funext i
  unfold cleared
  split_ifs with hi
  · by_contra hne
    rw [eq_comm] at hne
    exact h (hi ▸ mem_of_packed hne)
  · rfl

theorem cleared_packed_last (hpid : pid ∉ l) (hroom : l.length < 20) :
    cleared pid (packed 20 0 (l ++ [pid])) = packed 20 0 l := by
  rw [← update_packed hroom]
  funext i
  by_cases hi : i = ⟨l.length, hroom⟩
  · subst hi
    rw [packed_of_le (le_refl _), cleared_eq_zero_iff, update_self]
    exact .inr rfl
  · have hsame := congrFun (cleared_packed hpid) i
    unfold cleared at hsame ⊢
    rw [update_of_ne hi]
    exact hsame

/-- The first zero of the array is the one behind the last process. -/
theorem Queue.Packed.first_zero {i : Fin 20} (hs : s.Packed) (hzero : s.running i = 0)
    (hbefore : ∀ j < i, s.running j ≠ 0) : i.val = s.live.length := by
  rw [hs.order] at hzero hbefore
  have hle := (packed_eq_blank_iff hs.zero_notMem).mp hzero
  by_contra hne
  have hlt : s.live.length < i.val := by omega
  exact hbefore ⟨s.live.length, by omega⟩ hlt (packed_of_le (le_refl _))

theorem Queue.Packed.remove (hs : s.Packed) (hgood : TakesLast s (.remove pid)) :
    removebackground pid s.running = some (packed 20 0 (s.live.erase pid)) := by
  obtain ⟨habsent, hroom⟩ | hlast := hgood
  · have hcleared : cleared pid s.running = packed 20 0 s.live := by
      rw [hs.order, cleared_packed habsent]
    rw [removebackground_free, hcleared, List.erase_of_not_mem habsent]
    rw [hcleared]
    exact packed_of_le (by simp; omega)
  · obtain ⟨l, hl⟩ := List.getLast?_eq_some_iff.mp hlast
    have hlive := hs.nodup
    have hroom := hs.room
    rw [hl, List.length_append, List.length_singleton] at hroom
    have hpid : pid ∉ l := by
      rw [hl] at hlive
      exact (List.nodup_cons.mp (List.nodup_append_comm.mp hlive)).1
    have hcleared : cleared pid s.running = packed 20 0 l := by
      rw [hs.order, hl, cleared_packed_last hpid (by omega)]
    have herase : s.live.erase pid = l := by
      rw [hl, List.erase_append_right _ hpid, List.erase_cons_head, List.append_nil]
    rw [removebackground_free, hcleared, herase]
    rw [hcleared]
    exact packed_of_le (by simp; omega)

/-- A removal that keeps the order takes the process launched last, or nothing. -/
theorem Queue.Packed.takesLast (hs : s.Packed)
    (hr : removebackground pid s.running = some (packed 20 0 (s.live.erase pid))) :
    TakesLast s (.remove pid) := by
  have hzero := hs.zero_notMem
  have hzero' : (0 : Int) ∉ s.live.erase pid := fun hmem => hzero (List.mem_of_mem_erase hmem)
  -- otherwise the last process would stand twice in the queue, or `index` would not be assigned
  have hlast : cleared pid s.running 19 = 0 := by
    by_contra hne
    obtain ⟨hcopy, htwice⟩ := removebackground_twice hne hr
    have hfull : 20 ≤ (s.live.erase pid).length := by
      by_contra hlt
      rw [htwice, packed_of_le (by simp; omega)] at hcopy
      exact hne hcopy.symm
    have hroom := hs.room
    have hle := List.length_erase_le (a := pid) (l := s.live)
    have habsent : pid ∉ s.live := by
      intro hmem
      have hlt := List.length_erase_of_mem hmem
      have hpos := List.length_pos_of_mem hmem
      omega
    rw [removebackground_full] at hr
    · cases hr
    · rw [hs.order, cleared_packed habsent]
      exact packed_full (by omega) hzero
  rw [removebackground_free hlast] at hr
  have hcells := Option.some_inj.mp hr
  by_cases hmem : pid ∈ s.live
  · right
    obtain ⟨l, l', hl⟩ := List.append_of_mem hmem
    have hnodup := hs.nodup
    have hroom := hs.room
    rw [hl, List.length_append, List.length_cons] at hroom
    have hpid : pid ∉ l := by
      rw [hl] at hnodup
      exact fun hmem => List.disjoint_of_nodup_append hnodup hmem List.mem_cons_self
    have herase : s.live.erase pid = l ++ l' := by
      rw [hl, List.erase_append_right _ hpid, List.erase_cons_head]
    have hcell : s.running ⟨l.length, by omega⟩ = pid := by
      rw [hs.order, packed_of_lt (by simp [hl])]
      simp [hl]
    -- the slot of the process is empty afterwards, so that nothing stood behind it
    have hempty : packed 20 0 (l ++ l') ⟨l.length, by omega⟩ = (0 : Int) := by
      rw [← herase, ← hcells]
      exact cleared_eq_zero_iff.mpr (.inr hcell)
    rw [herase] at hzero'
    have hle : (l ++ l').length ≤ l.length := (packed_eq_blank_iff hzero').mp hempty
    rw [List.length_append] at hle
    have hnil : l' = [] := List.eq_nil_of_length_eq_zero (by omega)
    rw [hl, hnil]
    exact List.getLast?_concat
  · left
    refine ⟨hmem, ?_⟩
    rw [hs.order, cleared_packed hmem] at hlast
    have hle := (packed_eq_blank_iff hzero).mp hlast
    by_contra hge
    have hfull := packed_full (by omega) hzero 19
    exact hfull hlast

theorem Queue.Packed.step (hs : s.Packed) (hgood : TakesLast s c) (h : background.step s c s') :
    s'.Packed := by
  have hsane := hs.toSane.step h
  obtain ⟨pid, i, rfl, hpos, hfresh, hzero, hbefore, rfl⟩ | ⟨pid, rfl, -, rfl⟩ |
    ⟨pid, r, rfl, hr, rfl⟩ := queue_cases h
  · have hi := hs.first_zero hzero hbefore
    have hroom : s.live.length < 20 := hi ▸ i.isLt
    refine ⟨hsane, ?_, by simp; omega⟩
    have hslot : i = ⟨s.live.length, hroom⟩ := Fin.ext hi
    rw [Queue.InOrder, hslot, hs.order]
    exact update_packed hroom
  · exact hs
  · refine ⟨hsane, ?_, le_trans List.length_erase_le hs.room⟩
    exact Option.some_inj.mp (hr.symm.trans (hs.remove hgood))

end Order

section Runs

variable {h : List Request} {s : Queue}

theorem empty_sane : (⟨fun _ => 0, []⟩ : Queue).Sane := ⟨List.nodup_nil, fun _ => nofun⟩

/-- While every removal takes the process launched last or nothing, the array is the queue of the
live processes, and a further removal keeps it so exactly if it does the same. -/
theorem launch_order (hrun : background.RunIf TakesLast h s) :
    s.InOrder ∧ ∀ pid, removebackground pid s.running = some (packed 20 0 (s.live.erase pid)) ↔
      TakesLast s (.remove pid) := by
  have hs : s.Packed := by
    apply hrun.stateInvariant
    · intro s₀ hinit
      subst hinit
      exact ⟨empty_sane, rfl, Nat.zero_le 20⟩
    · intro s c s' hs hgood hstep
      exact hs.step hgood hstep
  exact ⟨hs.order, fun pid => ⟨hs.takesLast, hs.remove⟩⟩

/-- While every removal leaves the last slot free, `index` is always initialised and every live
process stands in exactly one slot, and a further removal keeps it so exactly if it does the
same. -/
theorem live_once (hrun : background.RunIf FreesLast h s) :
    Tracks s.running s.live ∧
      ∀ pid, (∃ r, removebackground pid s.running = some r ∧ Tracks r (s.live.erase pid)) ↔
        FreesLast s (.remove pid) := by
  have hinv : s.Sane ∧ Tracks s.running s.live := by
    apply hrun.stateInvariant (I := fun s => s.Sane ∧ Tracks s.running s.live)
    · intro s₀ hinit
      subst hinit
      exact ⟨empty_sane, fun _ => nofun, fun _ hi => absurd rfl hi⟩
    · intro s c s' hs hgood hstep
      exact ⟨hs.1.step hstep, hs.2.step hs.1 hgood hstep⟩
  exact ⟨hinv.2, fun pid => hinv.2.remove_iff hinv.1 pid⟩

/-- Calls that can be played from the empty array are a run. -/
theorem exists_queue (ok : Queue → Request → Prop) [∀ s c, Decidable (ok s c)]
    {calls : List Request} {P : Queue → Prop} [DecidablePred P]
    (hplay : (System.playIf Queue.step ok ⟨fun _ => 0, []⟩ calls).any (decide <| P ·) = true) :
    ∃ s, background.RunIf ok calls.reverse s ∧ P s := by
  obtain ⟨s, hs, hP⟩ := (Option.any_eq_true _ _).mp hplay
  exact ⟨s, ⟨_, rfl, System.steps_of_playIf (fun _ _ _ h => h) hs⟩, of_decide_eq_true hP⟩

end Runs

/-- Three launches, and the removals of the last one and of nothing. -/
theorem lastFirst : ∃ s, background.RunIf TakesLast
    [Request.add 7, .add 5, .add 9, .remove 9, .remove 0].reverse s ∧ s.live = [7, 5] :=
  exists_queue _ (by decide +kernel)

theorem launch_order_last : ∃ s, background.RunIf TakesLast
    [Request.add 7, .add 5, .add 9, .remove 9, .remove 0].reverse s ∧
      s.running = packed 20 0 [7, 5] := by
  obtain ⟨s, hrun, hlive⟩ := lastFirst
  have horder := (launch_order hrun).1
  rw [Queue.InOrder, hlive] at horder
  exact ⟨s, hrun, horder⟩

theorem firstOut : ∃ s, background.RunIf (fun _ _ => True)
    [Request.add 7, .add 5, .remove 7].reverse s ∧
      (s.live = [5] ∧ s.running 0 = 0 ∧ s.running 1 = 5) :=
  exists_queue _ (by decide +kernel)

/-- The removal of the first of two processes leaves a gap in front of the other one. -/
theorem launch_order_broken : ∃ s, background.Run [Request.add 7, .add 5, .remove 7].reverse s ∧
    s.live = [5] ∧ ¬ s.InOrder := by
  obtain ⟨s, hrun, hlive, hgap, -⟩ := firstOut
  refine ⟨s, hrun, hlive, fun horder => ?_⟩
  rw [horder, hlive] at hgap
  exact absurd hgap (by decide)

theorem gapFilled : ∃ s, background.RunIf FreesLast
    [Request.add 7, .add 5, .remove 7, .remove 0, .add 9].reverse s ∧ s.live = [5, 9] :=
  exists_queue _ (by decide +kernel)

/-- A new process takes the gap, and both are in the array once. -/
theorem live_once_gap : ∃ s, background.RunIf FreesLast
    [Request.add 7, .add 5, .remove 7, .remove 0, .add 9].reverse s ∧ s.live = [5, 9] ∧
      (∃! i, s.running i = 5) ∧ ∃! i, s.running i = 9 := by
  obtain ⟨s, hrun, hlive⟩ := gapFilled
  have hs := (live_once hrun).1
  rw [hlive] at hs
  exact ⟨s, hrun, hlive, hs.once 5 (by decide), hs.once 9 (by decide)⟩

/-- As many launches as there are slots. -/
def launches : List Request := (List.range 20).map fun i => .add (i + 1)

theorem launches_full : ∃ s, background.RunIf (fun _ _ => True) launches.reverse s ∧
    (20 ∈ s.live ∧ removebackground 0 s.running = none ∧
      (removebackground 7 s.running).any (fun r => r 18 = 20 ∧ r 19 = 20)) :=
  exists_queue _ (by decide +kernel)

/-- When the array is full, the call of `removebackground` that ends the turn of the menu reads
`index` before it is assigned, and the removal of any process but the last doubles the last. -/
theorem live_once_broken : ∃ s, background.Run launches.reverse s ∧
    removebackground 0 s.running = none ∧
      ∃ r, removebackground 7 s.running = some r ∧ ¬ Tracks r (s.live.erase 7) := by
  obtain ⟨s, hrun, hlast, hnone, hremove⟩ := launches_full
  obtain ⟨r, hr, htwice⟩ := (Option.any_eq_true _ _).mp hremove
  obtain ⟨hfirst, hsecond⟩ := of_decide_eq_true htwice
  refine ⟨s, hrun, hnone, r, hr, fun ht => ?_⟩
  have hmem : (20 : Int) ∈ s.live.erase 7 := (List.mem_erase_of_ne (by decide)).mpr hlast
  have hsame := (ht.once 20 hmem).unique hfirst hsecond
  exact absurd hsame (by decide)

end Cs3013.Shell
