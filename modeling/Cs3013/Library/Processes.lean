import Cs3013.Library.Transition
import Mathlib.Logic.Function.Basic

/-!
# Trees of processes

Processes that create each other, end, and wait for their children. A process only knows its own
state; what it does next is one system call together with the state after it. The table knows the
parent of every process and whether it has ended. One step changes at most two processes, and
`Change` lists what can happen to each of them.
-/
namespace Cs3013.Library.Processes

open Function Transition

variable {α ℓ : Type}

/-- A process that has ended is kept until its parent waits for it. -/
inductive Status (α : Type) where
  | absent
  | active (a : α)
  | ended
  | reaped

namespace Status

def isCreated : Status α → Bool
  | absent => false
  | _ => true

def isEnded : Status α → Bool
  | ended => true
  | _ => false

def isTerminated : Status α → Bool
  | ended => true
  | reaped => true
  | _ => false

def isUnreaped : Status α → Bool
  | active _ => true
  | ended => true
  | _ => false

theorem created_of_terminated {x : Status α} (h : x.isTerminated) : x.isCreated := by
  cases x with
  | absent => cases h
  | _ => rfl

theorem created_of_unreaped {x : Status α} (h : x.isUnreaped) : x.isCreated := by
  cases x with
  | absent => cases h
  | _ => rfl

end Status

/-- The processes created so far. -/
structure Table (α : Type) where
  pids : List Int
  parent : Int → Int
  status : Int → Status α
  listed : ∀ c, (status c).isCreated → c ∈ pids

/-- A system call with the state of its process afterwards: none at all, `fork` with the new
process and its state, the end of a wait for a child, a poll while no child has ended, and a wait
without children. -/
inductive Call (α : Type) where
  | step (b : α)
  | fork (c : Int) (b b' : α)
  | wait (c : Int) (b : α)
  | poll (b : α)
  | fail (b : α)

def Call.next : Call α → α
  | step b => b
  | fork _ b _ => b
  | wait _ b => b
  | poll b => b
  | fail b => b

/-- A process goes on, as the label tells it, or comes to its end. -/
inductive Event (ℓ : Type) where
  | act (p : Int) (l : ℓ)
  | terminate (p : Int)

namespace Table

variable (t : Table α) (p c : Int)

def Created : Prop := (t.status c).isCreated

def Terminated : Prop := (t.status c).isTerminated

def Child : Prop := t.parent c = p ∧ t.Created c

/-- A child that has ended and not been waited for. -/
def Ended : Prop := t.parent c = p ∧ (t.status c).isEnded

/-- A child that has not been waited for. -/
def Unreaped : Prop := t.parent c = p ∧ (t.status c).isUnreaped

instance : Decidable (t.Created c) := inferInstanceAs (Decidable (_ = _))
instance : Decidable (t.Terminated c) := inferInstanceAs (Decidable (_ = _))
instance : Decidable (t.Ended p c) := inferInstanceAs (Decidable (_ ∧ _))
instance : Decidable (t.Unreaped p c) := inferInstanceAs (Decidable (_ ∧ _))

def set (x : Status α) : Table α where
  pids := t.pids.insert p
  parent := t.parent
  status := update t.status p x
  listed q hq := by
    by_cases hqp : q = p
    · subst hqp
      exact List.mem_insert_self
    · rw [update_of_ne hqp] at hq
      exact List.mem_insert_of_mem (t.listed q hq)

def fork (b b' : α) : Table α :=
  { (t.set p (.active b)).set c (.active b') with parent := update t.parent c p }

/-- A new process has a number of its own, and a wait returns a child that has ended. -/
def Allows : Call α → Prop
  | .step _ => True
  | .fork c _ _ => 0 < c ∧ ¬ t.Created c
  | .wait c _ => t.Ended p c
  | .poll _ => ∀ c ∈ t.pids, ¬ t.Ended p c
  | .fail _ => ∀ c ∈ t.pids, ¬ t.Unreaped p c

instance : (x : Call α) → Decidable (t.Allows p x)
  | .step _ => inferInstanceAs (Decidable True)
  | .fork _ _ _ => inferInstanceAs (Decidable (_ ∧ _))
  | .wait _ _ => inferInstanceAs (Decidable (t.Ended p _))
  | .poll _ => inferInstanceAs (Decidable (∀ c ∈ t.pids, _))
  | .fail _ => inferInstanceAs (Decidable (∀ c ∈ t.pids, _))

def after : Call α → Table α
  | .step b => t.set p (.active b)
  | .fork c b b' => t.fork p c b b'
  | .wait c b => (t.set c .reaped).set p (.active b)
  | .poll b => t.set p (.active b)
  | .fail b => t.set p (.active b)

/-- The only process. -/
def single (a : α) : Table α where
  pids := [p]
  parent := fun _ => 0
  status := update (fun _ => .absent) p (.active a)
  listed q hq := by
    by_cases hqp : q = p
    · exact hqp ▸ List.mem_cons_self
    · rw [update_of_ne hqp] at hq
      cases hq

end Table

/-- `code` is what a process does in a state under a label. -/
def Table.next (code : α → ℓ → Option (Call α)) (t : Table α) : Event ℓ → Option (Table α)
  | .act p l =>
    match t.status p with
    | .active a => (code a l).bind fun x => if t.Allows p x then some (t.after p x) else none
    | _ => none
  | .terminate p =>
    match t.status p with
    | .active _ => some (t.set p .ended)
    | _ => none

/-- All processes from the first one on, in any order. -/
def processes (code : α → ℓ → Option (Call α)) (init : Table α → Prop) :
    System (Table α) (Event ℓ) where
  init := init
  step t e u := t.next code e = some u

/-- What one step does to the process `q`. -/
inductive Change (code : α → ℓ → Option (Call α)) (t : Table α) (e : Event ℓ) (u : Table α)
    (q : Int) : Prop
  | same (he : ∀ l, e ≠ .act q l) (hstatus : u.status q = t.status q)
      (hparent : u.parent q = t.parent q)
  | acts {a : α} {l : ℓ} {x : Call α} (he : e = .act q l) (ha : t.status q = .active a)
      (hx : code a l = some x) (hallowed : t.Allows q x) (hstatus : u.status q = .active x.next)
      (hparent : u.parent q = t.parent q)
  | ends {a : α} (he : e = .terminate q) (ha : t.status q = .active a)
      (hstatus : u.status q = .ended) (hparent : u.parent q = t.parent q)
  | starts {p : Int} {a b b' : α} {l : ℓ} (he : e = .act p l) (ha : t.status p = .active a)
      (hx : code a l = some (.fork q b b')) (hold : ¬ t.Created q)
      (hstatus : u.status q = .active b') (hparent : u.parent q = p)
  | reaped {p : Int} {a b : α} {l : ℓ} (he : e = .act p l) (ha : t.status p = .active a)
      (hx : code a l = some (.wait q b)) (hold : t.Ended p q) (hstatus : u.status q = .reaped)
      (hparent : u.parent q = t.parent q)

section Steps

variable {code : α → ℓ → Option (Call α)} {init : Table α → Prop} {t u : Table α} {e : Event ℓ}
  {p q c : Int}

theorem next_cases (h : t.next code e = some u) :
    (∃ p l a x, e = .act p l ∧ t.status p = .active a ∧ code a l = some x ∧ t.Allows p x ∧
      u = t.after p x) ∨
    ∃ p a, e = .terminate p ∧ t.status p = .active a ∧ u = t.set p .ended := by
  cases e with
  | act p l =>
    rw [Table.next] at h
    split at h
    · next a ha =>
      obtain ⟨x, hx, hu⟩ := Option.bind_eq_some_iff.mp h
      obtain ⟨hallowed, hu⟩ := Option.ite_none_right_eq_some.mp hu
      exact .inl ⟨p, l, a, x, rfl, ha, hx, hallowed, (Option.some_inj.mp hu).symm⟩
    · cases h
  | terminate p =>
    rw [Table.next] at h
    split at h
    · next a ha => exact .inr ⟨p, a, rfl, ha, (Option.some_inj.mp h).symm⟩
    · cases h

theorem Table.fork_parent (b b' : α) : (t.fork p c b b').parent = update t.parent c p := rfl

theorem Table.fork_status (b b' : α) :
    (t.fork p c b b').status = update (update t.status p (.active b)) c (.active b') := rfl

theorem Table.created_of_active {a : α} (h : t.status p = .active a) : t.Created p := by
  unfold Created
  rw [h]
  rfl

theorem Table.single_status (a : α) : (single p a).status p = .active a := by
  simp [single]

theorem Table.single_absent (h : q ≠ p) (a : α) : (single p a).status q = .absent := by
  simp [single, h]

/-- The caller itself. -/
theorem Table.after_self {a : α} {x : Call α} (ha : t.status p = .active a)
    (hallowed : t.Allows p x) :
    (t.after p x).status p = .active x.next ∧ (t.after p x).parent p = t.parent p := by
  cases x with
  | fork c b b' =>
    have hne : p ≠ c := fun heq => hallowed.2 (heq ▸ created_of_active ha)
    constructor
    · rw [after, fork_status, update_of_ne hne, update_self]
      rfl
    · rw [after, fork_parent, update_of_ne hne]
  | step b => exact ⟨update_self p _ t.status, rfl⟩
  | wait c b => exact ⟨update_self p _ _, rfl⟩
  | poll b => exact ⟨update_self p _ t.status, rfl⟩
  | fail b => exact ⟨update_self p _ t.status, rfl⟩

/-- Any other process. -/
theorem Table.after_other {a : α} {l : ℓ} {x : Call α} (ha : t.status p = .active a)
    (hx : code a l = some x) (hallowed : t.Allows p x) (hq : q ≠ p) :
    Change code t (.act p l) (t.after p x) q := by
  have he : ∀ l', Event.act p l ≠ .act q l' := fun l' heq => hq (Event.act.inj heq).1.symm
  have hset : ∀ y : Status α, update t.status p y q = t.status q :=
    fun y => update_of_ne hq y t.status
  cases x with
  | fork c b b' =>
    by_cases hc : q = c
    · subst hc
      refine .starts rfl ha hx hallowed.2 (update_self q _ _) ?_
      rw [after, fork_parent, update_self]
    · refine .same he ((update_of_ne hc _ _).trans (hset _)) ?_
      rw [after, fork_parent, update_of_ne hc]
  | wait c b =>
    have hfirst : ((t.set c .reaped).set p (.active b)).status q = update t.status c .reaped q :=
      update_of_ne hq _ _
    by_cases hc : q = c
    · subst hc
      exact .reaped rfl ha hx hallowed (hfirst.trans (update_self q _ _)) rfl
    · exact .same he (hfirst.trans (update_of_ne hc _ _)) rfl
  | step b => exact .same he (hset _) rfl
  | poll b => exact .same he (hset _) rfl
  | fail b => exact .same he (hset _) rfl

theorem step_change (h : (processes code init).step t e u) (q : Int) : Change code t e u q := by
  obtain ⟨p, l, a, x, rfl, ha, hx, hallowed, rfl⟩ | ⟨p, a, rfl, ha, rfl⟩ := next_cases h
  · by_cases hq : q = p
    · subst hq
      obtain ⟨hstatus, hparent⟩ := Table.after_self ha hallowed
      exact .acts rfl ha hx hallowed hstatus hparent
    · exact Table.after_other ha hx hallowed hq
  · by_cases hq : q = p
    · subst hq
      exact .ends rfl ha (update_self q _ t.status) rfl
    · exact .same nofun (update_of_ne hq _ t.status) rfl

/-- The step of a process in a known state. -/
theorem step_of_act {a : α} {l : ℓ} {x : Call α} (h : (processes code init).step t (.act p l) u)
    (ha : t.status p = .active a) (hx : code a l = some x) : t.Allows p x ∧ u = t.after p x := by
  obtain ⟨p', l', a', x', he, ha', hx', hallowed, rfl⟩ | ⟨p', a', he, -, -⟩ := next_cases h
  · obtain ⟨rfl, rfl⟩ := Event.act.inj he
    obtain rfl := Status.active.inj (ha.symm.trans ha')
    obtain rfl := Option.some_inj.mp (hx.symm.trans hx')
    exact ⟨hallowed, rfl⟩
  · cases he

theorem Table.fork_child (b b' : α) : (t.fork p c b b').Unreaped p c := by
  refine ⟨?_, ?_⟩
  · rw [fork_parent, update_self]
  · rw [fork_status, update_self]
    rfl

theorem Table.wait_reaped {a : α} (ha : t.status p = .active a) (hc : t.Ended p c) (b : α) :
    (t.after p (.wait c b)).status c = .reaped := by
  have hne : c ≠ p := by
    rintro rfl
    have hended := hc.2
    rw [ha] at hended
    cases hended
  show update (update t.status c .reaped) p _ c = _
  rw [update_of_ne hne, update_self]

theorem Table.wait_terminated {a : α} (ha : t.status p = .active a) (hc : t.Ended p c) (b : α) :
    (t.after p (.wait c b)).Terminated c := by
  unfold Terminated
  rw [wait_reaped ha hc b]
  rfl

theorem Table.Unreaped.child (h : t.Unreaped p c) : t.Child p c :=
  ⟨h.1, Status.created_of_unreaped h.2⟩

theorem Table.Ended.unreaped (h : t.Ended p c) : t.Unreaped p c := by
  refine ⟨h.1, ?_⟩
  have hended := h.2
  cases hstatus : t.status c <;> rw [hstatus] at hended <;> first | rfl | cases hended

/-- A child that is not waiting to be reaped has been reaped. -/
theorem Table.Child.terminated (h : t.Child p c) (hreaped : ¬ t.Unreaped p c) : t.Terminated c := by
  obtain ⟨hparent, hcreated⟩ := h
  unfold Created at hcreated
  unfold Terminated
  cases hstatus : t.status c with
  | absent => simp [hstatus, Status.isCreated] at hcreated
  | active a => exact absurd ⟨hparent, hstatus ▸ rfl⟩ hreaped
  | ended => rfl
  | reaped => rfl

/-- The guard of a wait without children. -/
theorem Table.not_unreaped {b : α} (h : t.Allows p (.fail b)) : ¬ t.Unreaped p c :=
  fun hc => h c (t.listed c hc.child.2) hc

/-! ## What stays and what is new -/

theorem Change.created (h : Change code t e u q) (hq : t.Created q) :
    u.Created q ∧ u.parent q = t.parent q := by
  unfold Table.Created at hq ⊢
  cases h with
  | same _ hstatus hparent => exact ⟨hstatus ▸ hq, hparent⟩
  | acts _ _ _ _ hstatus hparent => exact ⟨hstatus ▸ rfl, hparent⟩
  | ends _ _ hstatus hparent => exact ⟨hstatus ▸ rfl, hparent⟩
  | starts _ _ _ hold => exact absurd hq hold
  | reaped _ _ _ _ hstatus hparent => exact ⟨hstatus ▸ rfl, hparent⟩

theorem Change.terminated (h : Change code t e u q) (hq : t.Terminated q) : u.Terminated q := by
  unfold Table.Terminated at hq ⊢
  cases h with
  | same _ hstatus => exact hstatus ▸ hq
  | acts _ ha => simp [ha, Status.isTerminated] at hq
  | ends _ _ hstatus => rw [hstatus]; rfl
  | starts _ _ _ hold => exact absurd (Status.created_of_terminated hq) hold
  | reaped _ _ _ _ hstatus => rw [hstatus]; rfl

/-- Only the parent reaps a process. -/
theorem Change.unreaped (h : Change code t e u q) (hq : t.Unreaped p q) :
    u.Unreaped p q ∨ ∃ a l b, e = .act p l ∧ t.status p = .active a ∧
      code a l = some (.wait q b) := by
  obtain ⟨rfl, hq⟩ := hq
  unfold Table.Unreaped
  cases h with
  | same _ hstatus hparent => exact .inl ⟨hparent, hstatus ▸ hq⟩
  | acts _ _ _ _ hstatus hparent => exact .inl ⟨hparent, hstatus ▸ rfl⟩
  | ends _ _ hstatus hparent => exact .inl ⟨hparent, hstatus ▸ rfl⟩
  | starts _ _ _ hold => exact absurd (Status.created_of_unreaped hq) hold
  | reaped he ha hx hold => exact .inr ⟨_, _, _, hold.1 ▸ he, hold.1 ▸ ha, hx⟩

theorem Change.child_keeps (h : Change code t e u q) (hq : t.Child p q) : u.Child p q := by
  obtain ⟨hcreated, hparent⟩ := h.created hq.2
  exact ⟨hparent.trans hq.1, hcreated⟩

/-- A step of the parent that is not a wait for it. -/
theorem Change.keeps {a : α} {l : ℓ} {x : Call α} (h : Change code t (.act p l) u q)
    (ha : t.status p = .active a) (hx : code a l = some x) (hq : t.Unreaped p q)
    (hne : ∀ b, x ≠ .wait q b) : u.Unreaped p q := by
  refine (h.unreaped hq).resolve_right fun hwait => ?_
  obtain ⟨a', l', b, he, ha', hx'⟩ := hwait
  obtain ⟨-, rfl⟩ := Event.act.inj he
  obtain rfl := Status.active.inj (ha.symm.trans ha')
  exact hne b (Option.some_inj.mp (hx.symm.trans hx'))

/-- Only a fork of its parent makes a child. -/
theorem Change.child (h : Change code t e u q) (hq : u.Unreaped p q) :
    t.Unreaped p q ∨ ∃ a l b b', e = .act p l ∧ t.status p = .active a ∧
      code a l = some (.fork q b b') := by
  obtain ⟨rfl, hq⟩ := hq
  unfold Table.Unreaped
  cases h with
  | same _ hstatus hparent => exact .inl ⟨hparent.symm, hstatus ▸ hq⟩
  | acts _ ha _ _ _ hparent => exact .inl ⟨hparent.symm, ha ▸ rfl⟩
  | ends _ ha _ hparent => exact .inl ⟨hparent.symm, ha ▸ rfl⟩
  | starts he ha hx _ _ hparent => exact .inr ⟨_, _, _, _, hparent ▸ he, hparent ▸ ha, hx⟩
  | reaped _ _ _ _ hstatus => simp [hstatus, Status.isUnreaped] at hq

/-- A process is where it was, or has taken a step, or is new. -/
theorem Change.active {b : α} (h : Change code t e u q) (hq : u.status q = .active b) :
    (t.status q = .active b ∧ ∀ l, e ≠ .act q l) ∨
    (∃ a l x, e = .act q l ∧ t.status q = .active a ∧ code a l = some x ∧ t.Allows q x ∧
      b = x.next) ∨
    ∃ p a l b', e = .act p l ∧ t.status p = .active a ∧ code a l = some (.fork q b' b) ∧
      ¬ t.Created q := by
  cases h with
  | same he hstatus => exact .inl ⟨hstatus ▸ hq, he⟩
  | acts he ha hx hallowed hstatus =>
    exact .inr (.inl ⟨_, _, _, he, ha, hx, hallowed, Status.active.inj (hq.symm.trans hstatus)⟩)
  | ends _ _ hstatus => cases hstatus.symm.trans hq
  | starts he ha hx hold hstatus =>
    obtain rfl := Status.active.inj (hstatus.symm.trans hq)
    exact .inr (.inr ⟨_, _, _, _, he, ha, hx, hold⟩)
  | reaped _ _ _ _ hstatus => cases hstatus.symm.trans hq

theorem Change.active_of_created {b : α} (h : Change code t e u q) (hold : t.Created q)
    (hq : u.status q = .active b) : (t.status q = .active b ∧ ∀ l, e ≠ .act q l) ∨
    ∃ a l x, e = .act q l ∧ t.status q = .active a ∧ code a l = some x ∧ t.Allows q x ∧
      b = x.next := by
  rcases h.active hq with hsame | hacts | hnew
  · exact .inl hsame
  · exact .inr hacts
  · obtain ⟨p, a, l, b', -, -, -, hfresh⟩ := hnew
    exact absurd hold hfresh

/-- A process that has been reaped stays so. -/
theorem Change.reaped_stays (h : Change code t e u q) (hq : t.status q = .reaped) :
    u.status q = .reaped := by
  cases h with
  | same _ hstatus => exact hstatus.trans hq
  | acts _ ha => cases ha.symm.trans hq
  | ends _ ha => cases ha.symm.trans hq
  | starts _ _ _ hold =>
    unfold Table.Created at hold
    rw [hq] at hold
    exact absurd rfl hold
  | reaped _ _ _ _ hstatus => exact hstatus

end Steps

/-! ## Steps that can be taken -/

section Schedules

variable {code : α → ℓ → Option (Call α)} {init : Table α → Prop} {t u : Table α} {p c d : Int}

theorem next_act {a : α} {l : ℓ} {x : Call α} (ha : t.status p = .active a)
    (hx : code a l = some x) (hallowed : t.Allows p x) :
    (processes code init).step t (.act p l) (t.after p x) := by
  show t.next code (.act p l) = _
  simp only [Table.next, ha, hx, Option.bind_some, if_pos hallowed]

theorem exists_step {a b : α} {l : ℓ} (ha : t.status p = .active a)
    (hx : code a l = some (.step b)) : ∃ u, (processes code init).step t (.act p l) u ∧
      u.status p = .active b ∧ u.parent = t.parent ∧ ∀ q, q ≠ p → u.status q = t.status q :=
  ⟨_, next_act ha hx trivial, update_self p _ _, rfl, fun _ hq => update_of_ne hq _ _⟩

theorem exists_wait {a b : α} {l : ℓ} (ha : t.status p = .active a)
    (hx : code a l = some (.wait d b)) (hd : t.Ended p d) :
    ∃ u, (processes code init).step t (.act p l) u ∧ u.status p = .active b ∧
      ∀ q, q ≠ p → q ≠ d → u.status q = t.status q := by
  refine ⟨_, next_act ha hx hd, update_self p _ _, fun q hq hqd => ?_⟩
  exact (update_of_ne hq _ _).trans (update_of_ne hqd _ _)

/-- A process that has not terminated still runs when only an active process has moved. -/
theorem Table.not_terminated {b : α} (hp : u.status p = .active b)
    (hother : c ≠ p → u.status c = t.status c) (hc : ¬ t.Terminated c) : ¬ u.Terminated c := by
  unfold Terminated at hc ⊢
  by_cases hcp : c = p
  · rw [hcp, hp]
    exact Bool.false_ne_true
  · rw [hother hcp]
    exact hc

/-- A child may end now. -/
theorem exists_ended (hd : t.Unreaped p d) :
    ∃ l u, (processes code init).Steps (fun _ _ => True) t l u ∧ u.Ended p d ∧
      ∀ q, q ≠ d → u.status q = t.status q := by
  obtain ⟨hparent, hunreaped⟩ := hd
  cases hstatus : t.status d with
  | absent => simp [hstatus, Status.isUnreaped] at hunreaped
  | reaped => simp [hstatus, Status.isUnreaped] at hunreaped
  | ended => exact ⟨[], t, .refl, ⟨hparent, hstatus ▸ rfl⟩, fun _ _ => rfl⟩
  | active a =>
    have hstep : (processes code init).step t (.terminate d) (t.set d .ended) := by
      show t.next code (.terminate d) = _
      simp only [Table.next, hstatus]
    refine ⟨_, _, .tail .refl trivial hstep, ⟨hparent, ?_⟩, fun q hq => update_of_ne hq _ _⟩
    simp [Table.set, Status.isEnded]

/-- Events that can be played one after the other, the last one first in `h`, are a run. -/
theorem exists_run {t₀ : Table α} (hinit : init t₀) (ok : Table α → Event ℓ → Prop)
    [∀ t e, Decidable (ok t e)] {h : List (Event ℓ)} {P : Table α → Prop} [DecidablePred P]
    (hplay : (System.playIf (Table.next code) ok t₀ h.reverse).any (decide <| P ·) = true) :
    ∃ t, (processes code init).RunIf ok h t ∧ P t := by
  obtain ⟨t, ht, hP⟩ := (Option.any_eq_true _ _).mp hplay
  have hsteps : (processes code init).Steps ok t₀ h.reverse.reverse t :=
    System.steps_of_playIf (fun _ _ _ hnext => hnext) ht
  rw [List.reverse_reverse] at hsteps
  exact ⟨t, ⟨t₀, hinit, hsteps⟩, of_decide_eq_true hP⟩

end Schedules

end Cs3013.Library.Processes
