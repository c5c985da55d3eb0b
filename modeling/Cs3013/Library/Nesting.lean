import Cs3013.Library.Processes
import Mathlib.Data.List.Nodup

/-!
# Processes that wait for what they start

A process that does nothing but wait for the child it has forked, until the child has ended, has
handed over its turn. When all processes do so the ones that are left are a stack: each one awaits
the one above it, and only the one on top can run. `awaits` tells which child a state waits for.
-/
namespace Cs3013.Library.Nesting

open Function Processes Transition

variable {α ℓ : Type}

/-- A call that keeps the order: a fork makes the caller wait for the new process, and a process
that waits makes no other call than the end of the wait. -/
def Nests (awaits : α → Option Int) (a : α) : Call α → Prop
  | .step b => awaits a = none ∧ awaits b = none
  | .poll b => awaits a = none ∧ awaits b = none
  | .fork c b b' => awaits a = none ∧ awaits b = some c ∧ awaits b' = none
  | .wait _ b => awaits b = none
  | .fail b => awaits b = none

/-- The event nests its call, or ends a process that does not wait. -/
def Orderly (code : α → ℓ → Option (Call α)) (awaits : α → Option Int) (t : Table α) :
    Event ℓ → Prop
  | .act p l => ∀ a x, t.status p = .active a → code a l = some x → Nests awaits a x
  | .terminate p => ∀ a, t.status p = .active a → awaits a = none

def Idle (awaits : α → Option Int) : Status α → Prop
  | .active a => awaits a = none
  | _ => True

/-- No process that waits for a child is ended from outside. -/
def EndsIdle (awaits : α → Option Int) (t : Table α) : Event ℓ → Prop
  | .act _ _ => True
  | .terminate p => Idle awaits (t.status p)

instance (awaits : α → Option Int) (x : Status α) : Decidable (Idle awaits x) :=
  match x with
  | .active _ => inferInstanceAs (Decidable (_ = _))
  | .absent | .ended | .reaped => inferInstanceAs (Decidable True)

instance (awaits : α → Option Int) (t : Table α) (e : Event ℓ) :
    Decidable (EndsIdle awaits t e) :=
  match e with
  | .act _ _ => inferInstanceAs (Decidable True)
  | .terminate _ => inferInstanceAs (Decidable (Idle _ _))

/-- The first process is a child of the second one, which awaits it, and so on to the last one,
which has no parent. -/
inductive Tower (awaits : α → Option Int) (t : Table α) : List Int → Prop
  | root {p : Int} (hparent : t.parent p = 0) : Tower awaits t [p]
  | push {q p : Int} {ps : List Int} {a : α} (h : Tower awaits t (p :: ps))
      (hparent : t.parent q = p) (ha : t.status p = .active a) (hawaits : awaits a = some q) :
      Tower awaits t (q :: p :: ps)

/-- The processes `ps` are all that have not been reaped, and only the first one can run. -/
structure Stacked (awaits : α → Option Int) (t : Table α) (ps : List Int) : Prop where
  tower : Tower awaits t ps
  nodup : ps.Nodup
  positive : ∀ p ∈ ps, 0 < p
  unreaped : ∀ p, (t.status p).isUnreaped ↔ p ∈ ps
  top : ∀ p a, ps.head? = some p → t.status p = .active a → awaits a = none

/-- One process at a time: at most one of them does not wait, a wait returns the child that the
process has forked for it, and who does not wait has no child left. -/
structure Sequential (code : α → ℓ → Option (Call α)) (awaits : α → Option Int) (t : Table α) :
    Prop where
  alone : ∀ p q a b, t.status p = .active a → t.status q = .active b → awaits a = none →
    awaits b = none → p = q
  childless : ∀ p a c, t.status p = .active a → awaits a = none → ¬ t.Unreaped p c
  own : ∀ p a l c b u, t.status p = .active a → code a l = some (.wait c b) →
    t.next code (.act p l) = some u → awaits a = some c
  found : ∀ p a l b u, t.status p = .active a → code a l = some (.fail b) →
    t.next code (.act p l) = some u → awaits a = none

theorem EndsIdle.orderly {code : α → ℓ → Option (Call α)} {awaits : α → Option Int}
    {t : Table α} {e : Event ℓ} (h : EndsIdle awaits t e)
    (hcode : ∀ p l, e = .act p l → ∀ a x, t.status p = .active a → code a l = some x →
      Nests awaits a x) : Orderly code awaits t e := by
  cases e with
  | act p l => exact hcode p l rfl
  | terminate p =>
    intro a ha
    have hidle : Idle awaits (t.status p) := h
    rw [ha] at hidle
    exact hidle

section Towers

variable {awaits : α → Option Int} {t u : Table α} {p q : Int} {ps : List Int}

theorem Tower.congr (h : Tower awaits t ps) (hparent : ∀ p ∈ ps, u.parent p = t.parent p)
    (hstatus : ∀ p ∈ ps.tail, u.status p = t.status p) : Tower awaits u ps := by
  induction h with
  | root hroot => exact .root ((hparent _ List.mem_cons_self).trans hroot)
  | push h hp ha hawaits ih =>
    refine .push (ih (fun p hp => hparent p (List.mem_cons_of_mem _ hp)) fun p hp =>
      hstatus p (List.mem_of_mem_tail hp)) ((hparent _ List.mem_cons_self).trans hp)
      ((hstatus _ List.mem_cons_self).trans ha) hawaits

/-- Everybody below the top waits for the next one above. -/
theorem Tower.waits (h : Tower awaits t ps) (hp : p ∈ ps.tail) :
    ∃ q a, q ∈ ps ∧ t.parent q = p ∧ t.status p = .active a ∧ awaits a = some q := by
  induction h with
  | root hroot => cases hp
  | @push q p' ps a h hparent ha hawaits ih =>
    rcases List.mem_cons.mp hp with rfl | hp
    · exact ⟨q, a, List.mem_cons_self, hparent, ha, hawaits⟩
    · obtain ⟨r, b, hr, hrest⟩ := ih hp
      exact ⟨r, b, List.mem_cons_of_mem _ hr, hrest⟩

/-- The parent of a process is below it. -/
theorem Tower.parent (h : Tower awaits t ps) (hq : q ∈ ps) :
    t.parent q = 0 ∨ t.parent q ∈ ps.tail := by
  induction h with
  | root hroot =>
    obtain rfl := List.mem_singleton.mp hq
    exact .inl hroot
  | @push q' p ps a h hparent ha hawaits ih =>
    rcases List.mem_cons.mp hq with rfl | hq
    · exact .inr (hparent ▸ List.mem_cons_self)
    · rcases ih hq with hzero | htail
      · exact .inl hzero
      · exact .inr (List.mem_of_mem_tail htail)

end Towers

section Stacks

variable {code : α → ℓ → Option (Call α)} {awaits : α → Option Int} {init : Table α → Prop}
  {t u : Table α} {e : Event ℓ} {p q c : Int} {ps : List Int} {a b b' : α} {y : Status α}

theorem Stacked.mem (hs : Stacked awaits t ps) (ha : t.status p = .active a) : p ∈ ps :=
  (hs.unreaped p).mp (ha ▸ rfl)

/-- A process is on top and does not wait, or it awaits the one above. -/
theorem Stacked.place (hs : Stacked awaits t ps) (ha : t.status p = .active a) :
    (∃ qs, ps = p :: qs ∧ awaits a = none) ∨
      ∃ q, t.Unreaped p q ∧ awaits a = some q := by
  have hmem := hs.mem ha
  cases ps with
  | nil => cases hmem
  | cons r qs =>
    rcases List.mem_cons.mp hmem with rfl | htail
    · exact .inl ⟨qs, rfl, hs.top p a rfl ha⟩
    · obtain ⟨q, a', hq, hparent, ha', hawaits⟩ := hs.tower.waits htail
      obtain rfl := Status.active.inj (ha.symm.trans ha')
      exact .inr ⟨q, ⟨hparent, (hs.unreaped q).mpr hq⟩, hawaits⟩

/-- A process that has ended is on top. -/
theorem Stacked.ended (hs : Stacked awaits t ps) (hc : (t.status c).isEnded) :
    ∃ qs, ps = c :: qs := by
  have hmem : c ∈ ps := by
    apply (hs.unreaped c).mp
    cases hstatus : t.status c <;> rw [hstatus] at hc <;> first | rfl | cases hc
  cases ps with
  | nil => cases hmem
  | cons r qs =>
    rcases List.mem_cons.mp hmem with rfl | htail
    · exact ⟨qs, rfl⟩
    · obtain ⟨q, a, -, -, ha, -⟩ := hs.tower.waits htail
      rw [ha] at hc
      cases hc

/-- A child that has ended is on top of its parent, which awaits it. -/
theorem Stacked.waited (hs : Stacked awaits t ps) (ha : t.status p = .active a)
    (hc : t.Ended p c) : ∃ qs, ps = c :: p :: qs ∧ awaits a = some c := by
  obtain ⟨qs, rfl⟩ := hs.ended hc.2
  have hne : p ≠ c := by
    rintro rfl
    have hended := hc.2
    rw [ha] at hended
    cases hended
  cases hs.tower with
  | root => exact absurd (List.mem_singleton.mp (hs.mem ha)) hne
  | push htower hparent ha' hawaits =>
    obtain rfl := hc.1.symm.trans hparent
    obtain rfl := Status.active.inj (ha.symm.trans ha')
    exact ⟨_, rfl, hawaits⟩

/-- The process on top changes its state or ends. -/
theorem Stacked.keep (hs : Stacked awaits t (p :: ps)) (hparent : u.parent = t.parent)
    (hstatus : u.status = update t.status p y) (hy : y.isUnreaped)
    (htop : ∀ a, y = .active a → awaits a = none) : Stacked awaits u (p :: ps) where
  tower := by
    refine hs.tower.congr (fun q _ => by rw [hparent]) fun q hq => ?_
    have hne : q ≠ p := fun heq => (List.nodup_cons.mp hs.nodup).1 (heq ▸ hq)
    rw [hstatus, update_of_ne hne]
  nodup := hs.nodup
  positive := hs.positive
  unreaped q := by
    by_cases hq : q = p
    · subst hq
      rw [hstatus, update_self]
      exact ⟨fun _ => List.mem_cons_self, fun _ => hy⟩
    · rw [hstatus, update_of_ne hq]
      exact hs.unreaped q
  top q a hq ha := by
    obtain rfl := Option.some_inj.mp hq
    rw [hstatus, update_self] at ha
    exact htop a ha

/-- A fork by the process on top puts the new one on top of it. -/
theorem Stacked.fork (hs : Stacked awaits t (p :: ps)) (hpos : 0 < c) (hnew : ¬ t.Created c)
    (hb : awaits b = some c) (hb' : awaits b' = none) :
    Stacked awaits (t.fork p c b b') (c :: p :: ps) := by
  have hfresh : c ∉ p :: ps := fun hc =>
    hnew (Status.created_of_unreaped ((hs.unreaped c).mpr hc))
  have hpc : p ≠ c := fun heq => hfresh (heq ▸ List.mem_cons_self)
  have hkeep : ∀ q ∈ p :: ps, (t.fork p c b b').parent q = t.parent q := by
    intro q hq
    have hqc : q ≠ c := fun heq => hfresh (heq ▸ hq)
    rw [Table.fork_parent, update_of_ne hqc]
  constructor
  · refine .push (a := b) (hs.tower.congr hkeep fun q hq => ?_) ?_ ?_ hb
    · have hqp : q ≠ p := fun heq => (List.nodup_cons.mp hs.nodup).1 (heq ▸ hq)
      have hqc : q ≠ c := fun heq => hfresh (heq ▸ List.mem_cons_of_mem _ hq)
      rw [Table.fork_status, update_of_ne hqc, update_of_ne hqp]
    · rw [Table.fork_parent, update_self]
    · rw [Table.fork_status, update_of_ne hpc, update_self]
  · exact List.nodup_cons.mpr ⟨hfresh, hs.nodup⟩
  · intro q hq
    rcases List.mem_cons.mp hq with rfl | hq
    · exact hpos
    · exact hs.positive q hq
  · intro q
    rw [Table.fork_status]
    by_cases hqc : q = c
    · subst hqc
      rw [update_self]
      exact ⟨fun _ => List.mem_cons_self, fun _ => rfl⟩
    · rw [update_of_ne hqc, List.mem_cons, or_iff_right hqc]
      by_cases hqp : q = p
      · subst hqp
        rw [update_self]
        exact ⟨fun _ => List.mem_cons_self, fun _ => rfl⟩
      · rw [update_of_ne hqp]
        exact hs.unreaped q
  · intro q a hq ha
    obtain rfl := Option.some_inj.mp hq
    rw [Table.fork_status, update_self] at ha
    obtain rfl := Status.active.inj ha
    exact hb'

/-- The end of a wait takes the process on top away. -/
theorem Stacked.wait (hs : Stacked awaits t (c :: p :: ps)) (hb : awaits b = none) :
    Stacked awaits ((t.set c .reaped).set p (.active b)) (p :: ps) := by
  have hcp : c ≠ p := fun heq =>
    (List.nodup_cons.mp hs.nodup).1 (heq ▸ List.mem_cons_self)
  have hnodup := (List.nodup_cons.mp hs.nodup).2
  have hstatus : ∀ q, q ≠ p →
      ((t.set c .reaped).set p (.active b)).status q = update t.status c .reaped q :=
    fun q hq => update_of_ne hq _ _
  have hself : ((t.set c .reaped).set p (.active b)).status p = .active b := update_self _ _ _
  have htower : Tower awaits t (p :: ps) := by
    cases hs.tower with
    | push h => exact h
  constructor
  · refine htower.congr (fun _ _ => rfl) fun q hq => ?_
    have hqp : q ≠ p := fun heq => (List.nodup_cons.mp hnodup).1 (heq ▸ hq)
    have hqc : q ≠ c := fun heq =>
      (List.nodup_cons.mp hs.nodup).1 (heq ▸ List.mem_cons_of_mem _ hq)
    rw [hstatus q hqp, update_of_ne hqc]
  · exact hnodup
  · exact fun q hq => hs.positive q (List.mem_cons_of_mem _ hq)
  · intro q
    by_cases hqp : q = p
    · subst hqp
      rw [hself]
      exact ⟨fun _ => List.mem_cons_self, fun _ => rfl⟩
    · rw [hstatus q hqp]
      by_cases hqc : q = c
      · subst hqc
        rw [update_self]
        exact ⟨fun h => Bool.noConfusion h, fun h => absurd h (List.nodup_cons.mp hs.nodup).1⟩
      · rw [update_of_ne hqc, hs.unreaped q, List.mem_cons, or_iff_right hqc]
  · intro q a hq ha
    obtain rfl := Option.some_inj.mp hq
    rw [hself] at ha
    obtain rfl := Status.active.inj ha
    exact hb

/-- What a step does to the stack. -/
theorem Stacked.step (hs : Stacked awaits t ps) (hok : Orderly code awaits t e)
    (h : (processes code init).step t e u) : ∃ ps', Stacked awaits u ps' := by
  obtain ⟨p, l, a, x, rfl, ha, hx, hallowed, rfl⟩ | ⟨p, a, rfl, ha, rfl⟩ := next_cases h
  · have hnests := hok a x ha hx
    obtain ⟨qs, rfl, hidle⟩ | ⟨q, hq, hawaits⟩ := hs.place ha
    · cases x with
      | step b =>
        exact ⟨p :: qs, hs.keep rfl rfl rfl fun a' ha' => Status.active.inj ha' ▸ hnests.2⟩
      | poll b =>
        exact ⟨p :: qs, hs.keep rfl rfl rfl fun a' ha' => Status.active.inj ha' ▸ hnests.2⟩
      | fail b =>
        exact ⟨p :: qs, hs.keep rfl rfl rfl fun a' ha' => Status.active.inj ha' ▸ hnests⟩
      | fork c b b' => exact ⟨c :: p :: qs, hs.fork hallowed.1 hallowed.2 hnests.2.1 hnests.2.2⟩
      | wait c b =>
        obtain ⟨rs, -, hawaits⟩ := hs.waited ha hallowed
        exact absurd (hawaits.symm.trans hidle) (Option.some_ne_none c)
    · cases x with
      | step b => exact absurd (hawaits.symm.trans hnests.1) (Option.some_ne_none q)
      | poll b => exact absurd (hawaits.symm.trans hnests.1) (Option.some_ne_none q)
      | fork c b b' => exact absurd (hawaits.symm.trans hnests.1) (Option.some_ne_none q)
      | fail b => exact absurd hq (Table.not_unreaped hallowed)
      | wait c b =>
        obtain ⟨rs, rfl, -⟩ := hs.waited ha hallowed
        exact ⟨p :: rs, hs.wait hnests⟩
  · have hidle := hok a ha
    obtain ⟨qs, rfl, -⟩ | ⟨q, -, hawaits⟩ := hs.place ha
    · exact ⟨p :: qs, hs.keep rfl rfl rfl fun a' ha' => by cases ha'⟩
    · exact absurd (hawaits.symm.trans hidle) (Option.some_ne_none q)

theorem stacked_single (hp : 0 < p) (ha : awaits a = none) :
    Stacked awaits (.single p a) [p] where
  tower := .root rfl
  nodup := List.nodup_singleton p
  positive q hq := List.mem_singleton.mp hq ▸ hp
  unreaped q := by
    by_cases hq : q = p
    · subst hq
      rw [Table.single_status]
      exact ⟨fun _ => List.mem_cons_self, fun _ => rfl⟩
    · rw [Table.single_absent hq, List.mem_singleton]
      exact ⟨fun h => Bool.noConfusion h, fun h => absurd h hq⟩
  top q a' hq ha' := by
    obtain rfl := Option.some_inj.mp hq
    rw [Table.single_status] at ha'
    obtain rfl := Status.active.inj ha'
    exact ha

/-- A stack of processes runs one process at a time. -/
theorem Stacked.sequential (hs : Stacked awaits t ps) : Sequential code awaits t where
  alone p q a b ha hb hidle hidle' := by
    obtain ⟨qs, rfl, -⟩ | ⟨q', -, hawaits⟩ := hs.place ha
    · obtain ⟨rs, heq, -⟩ | ⟨q', -, hawaits⟩ := hs.place hb
      · exact (List.cons.inj heq).1
      · exact absurd (hawaits.symm.trans hidle') (Option.some_ne_none q')
    · exact absurd (hawaits.symm.trans hidle) (Option.some_ne_none q')
  childless p a c ha hidle hc := by
    have hmem := (hs.unreaped c).mp hc.2
    obtain ⟨qs, rfl, -⟩ | ⟨q, -, hawaits⟩ := hs.place ha
    · rcases hs.tower.parent hmem with hzero | htail
      · have hpos := hs.positive p List.mem_cons_self
        rw [hc.1] at hzero
        omega
      · rw [hc.1] at htail
        exact (List.nodup_cons.mp hs.nodup).1 htail
    · exact absurd (hawaits.symm.trans hidle) (Option.some_ne_none q)
  own p a l c b u ha hx hstep := by
    have hstep : (processes code fun _ => True).step t (.act p l) u := hstep
    obtain ⟨hallowed, -⟩ := step_of_act hstep ha hx
    obtain ⟨qs, -, hawaits⟩ := hs.waited ha hallowed
    exact hawaits
  found p a l b u ha hx hstep := by
    have hstep : (processes code fun _ => True).step t (.act p l) u := hstep
    obtain ⟨hallowed, -⟩ := step_of_act hstep ha hx
    obtain ⟨qs, -, hidle⟩ | ⟨q, hq, -⟩ := hs.place ha
    · exact hidle
    · exact absurd hq (Table.not_unreaped hallowed)

theorem run_sequential {ok : Table α → Event ℓ → Prop} {h : List (Event ℓ)}
    (hinit : ∀ t, init t → ∃ p a, 0 < p ∧ awaits a = none ∧ t = .single p a)
    (hok : ∀ t e, ok t e → Orderly code awaits t e)
    (hrun : (processes code init).RunIf ok h t) : Sequential code awaits t := by
  have hstacked : ∃ ps, Stacked awaits t ps := by
    apply hrun.stateInvariant (I := fun t => ∃ ps, Stacked awaits t ps)
    · intro t ht
      obtain ⟨p, a, hp, ha, rfl⟩ := hinit t ht
      exact ⟨[p], stacked_single hp ha⟩
    · intro t e u hs he hstep
      obtain ⟨ps, hs⟩ := hs
      exact hs.step (hok t e he) hstep
  obtain ⟨ps, hs⟩ := hstacked
  exact hs.sequential

end Stacks

end Cs3013.Library.Nesting
