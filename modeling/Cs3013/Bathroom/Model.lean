import Cs3013.Library.Transition
import Mathlib.Data.Fintype.Card
import Mathlib.Algebra.BigOperators.Group.Finset.Basic
import Mathlib.Algebra.GroupWithZero.Nat

/-!
# The bathroom and its users

`Enter` and `Leave` of `bathroom.c` and the loop of `Individual`. The lock makes each stretch of
code between a lock and an unlock one step; `pthread_cond_wait` cuts `Enter` in two. A state is
what holds while the lock is free. The two histograms are kept as functions of the index, so that
a write outside of the allocated cells can be seen. The counters are unbounded: a run that
overflows an `int` is not distinguished.
-/
namespace Cs3013.Bathroom

open Cs3013.Library.Transition

inductive Gender where
  | male
  | female
  deriving DecidableEq, Repr

/-- `flag`: VACANT, or the gender that uses the bathroom. -/
abbrev Flag := Option Gender

abbrev vacant : Flag := none

/-- `struct timeval`. -/
structure Timeval where
  tvSec : Int
  tvUsec : Int
  deriving DecidableEq, Repr

namespace Timeval

/-- What `gettimeofday` stores. -/
def Valid (t : Timeval) : Prop := 0 ≤ t.tvUsec ∧ t.tvUsec < 1000000

instance : DecidablePred Valid := fun _ => inferInstanceAs (Decidable (_ ∧ _))

/-- The reading as one number of microseconds. -/
def micros (t : Timeval) : Int := 1000000 * t.tvSec + t.tvUsec

instance : Preorder Timeval where
  le a b := a.tvSec < b.tvSec ∨ a.tvSec = b.tvSec ∧ a.tvUsec ≤ b.tvUsec
  le_refl _ := .inr ⟨rfl, le_refl _⟩
  le_trans := by
    intro a b c hab hbc
    omega

instance : DecidableLE Timeval := fun _ _ => inferInstanceAs (Decidable (_ ∨ _))

variable {a b : Timeval}

theorem tvSec_le (h : a ≤ b) : a.tvSec ≤ b.tvSec := by
  obtain hlt | ⟨heq, -⟩ := h
  · exact hlt.le
  · exact heq.le

theorem micros_le (ha : a.Valid) (hb : b.Valid) (h : a ≤ b) : a.micros ≤ b.micros := by
  obtain ⟨-, ha⟩ := ha
  obtain ⟨hb, -⟩ := hb
  unfold micros
  obtain hlt | ⟨heq, hle⟩ := h
  · omega
  · omega

end Timeval

/-- The global variables that `Enter` and `Leave` use, with the fields of `abathroom`. -/
structure Globals where
  users : Int
  quers : Int
  ques : Int
  uses : Int
  vacanttime : Int
  flag : Flag
  barray : Int → Int
  qarray : Int → Int
  vacstart : Timeval
  vacend : Timeval

/-- `array[k]++`. -/
def increment (array : Int → Int) (k : Int) : Int → Int :=
  Function.update array k (array k + 1)

/-- What `Initialize` leaves at the time `now`. -/
def initializeBathroom (now : Timeval) : Globals where
  users := 0
  quers := 0
  ques := 0
  uses := 0
  vacanttime := 0
  flag := vacant
  barray := fun _ => -1
  qarray := fun _ => -1
  vacstart := now
  vacend := ⟨0, 0⟩

/-- `Enter` up to its unlock, or up to `pthread_cond_wait`; the second component is `*wait`. -/
def enter (g : Gender) (now : Timeval) (a : Globals) : Globals × Int :=
  if a.flag = vacant then
    ({ a with
        vacend := now
        vacanttime := a.vacanttime + (now.tvUsec - a.vacstart.tvUsec)
        flag := some g
        users := a.users + 1
        uses := a.uses + 1
        barray := increment a.barray (a.users + 1) }, 0)
  else if a.flag = some g then
    ({ a with
        uses := a.uses + 1
        users := a.users + 1
        barray := increment a.barray (a.users + 1) }, 0)
  else
    ({ a with
        quers := a.quers + 1
        ques := a.ques + 1
        qarray := increment a.qarray (a.quers + 1) }, 1)

/-- The rest of `Enter` after `pthread_cond_wait`. Its histogram index is not the field `users`
but the global one, the number `n` of threads. -/
def resume (n : Nat) (g : Gender) (a : Globals) : Globals :=
  { a with
    flag := some g
    users := a.users + 1
    barray := increment a.barray n
    uses := a.uses + 1
    quers := a.quers - 1 }

/-- `Leave`; the second component says whether it broadcasts `change`. -/
def leave (now : Timeval) (a : Globals) : Globals × Bool :=
  if a.users - 1 ≤ 0 then
    ({ a with users := a.users - 1, flag := vacant, vacstart := now }, true)
  else
    ({ a with users := a.users - 1 }, false)

/-! ## The threads -/

/-- Where a thread is while the lock is free: not between `Enter` and `Leave`, in
`pthread_cond_wait` without or with a wakeup, or between the return of `Enter` and `Leave`. -/
inductive Place where
  | outside
  | blocked
  | woken
  | inside
  deriving DecidableEq, Repr

/-- The local variables of `Individual` that its loop uses. -/
structure Thread where
  g : Gender
  loopcount : Nat
  i : Nat
  wait : Int
  place : Place

/-- A broadcast reaches every thread that is blocked. -/
def Thread.signalled (x : Thread) : Thread :=
  { x with place := if x.place = .blocked then .woken else x.place }

/-- Numerals stand for the threads of a run with two of them. -/
scoped instance two_neZero : NeZero 2 := ⟨by decide⟩

/-- The program with `n` threads. -/
structure Sim (n : Nat) extends Globals where
  thread : Fin n → Thread

/-- A critical section of a thread, or the end of its wait without a broadcast. -/
inductive Event (n : Nat) where
  | enter (t : Fin n) (now : Timeval)
  | resume (t : Fin n)
  | leave (t : Fin n) (now : Timeval)
  | wake (t : Fin n)

namespace Sim

variable {n : Nat} (s : Sim n) (t : Fin n) (now : Timeval)

def place : Place := (s.thread t).place

/-- Thread `t` has an iteration of its loop ahead. -/
def Arrives : Prop := s.place t = .outside ∧ (s.thread t).i < (s.thread t).loopcount

instance : Decidable (s.Arrives t) := inferInstanceAs (Decidable (_ ∧ _))

def entered : Sim n where
  toGlobals := (enter (s.thread t).g now s.toGlobals).1
  thread := Function.update s.thread t
    { s.thread t with
      wait := (enter (s.thread t).g now s.toGlobals).2
      place := if (enter (s.thread t).g now s.toGlobals).2 = 0 then .inside else .blocked }

def resumed : Sim n where
  toGlobals := resume n (s.thread t).g s.toGlobals
  thread := Function.update s.thread t { s.thread t with place := .inside }

/-- The threads after `t` has gone on to the next iteration. -/
def departed : Fin n → Thread :=
  Function.update s.thread t { s.thread t with i := (s.thread t).i + 1, place := .outside }

def left : Sim n where
  toGlobals := (leave now s.toGlobals).1
  thread := fun t' =>
    if (leave now s.toGlobals).2 then (s.departed t t').signalled else s.departed t t'

def awake : Sim n :=
  { s with thread := Function.update s.thread t { s.thread t with place := .woken } }

def step (s : Sim n) : Event n → Option (Sim n)
  | .enter t now => if s.Arrives t then some (s.entered t now) else none
  | .resume t => if s.place t = .woken then some (s.resumed t) else none
  | .leave t now => if s.place t = .inside then some (s.left t now) else none
  | .wake t => if s.place t = .blocked then some (s.awake t) else none

end Sim

/-- All threads before their first iteration; every thread has at least one. -/
def start {n : Nat} (now : Timeval) (g : Fin n → Gender) (loopcount : Fin n → Nat) : Sim n where
  toGlobals := initializeBathroom now
  thread := fun t => ⟨g t, loopcount t, 0, -1, .outside⟩

/-- The interleavings of the critical sections, spurious wakeups included. -/
def bathroomsim (n : Nat) : System (Sim n) (Event n) where
  init s := ∃ now g loopcount, (∀ t, 0 < loopcount t) ∧ s = start now g loopcount
  step s e s' := s.step e = some s'

section Steps

variable {n : Nat} {s s' : Sim n} {e : Event n}

/-- What a step can be. -/
theorem step_cases (h : (bathroomsim n).step s e s') :
    (∃ t now, e = .enter t now ∧ s.Arrives t ∧ s' = s.entered t now) ∨
    (∃ t, e = .resume t ∧ s.place t = .woken ∧ s' = s.resumed t) ∨
    (∃ t now, e = .leave t now ∧ s.place t = .inside ∧ s' = s.left t now) ∨
    (∃ t, e = .wake t ∧ s.place t = .blocked ∧ s' = s.awake t) := by
  have hstep : s.step e = some s' := h
  cases e with
  | enter t now =>
    obtain ⟨hguard, hs'⟩ := Option.ite_none_right_eq_some.mp hstep
    exact .inl ⟨t, now, rfl, hguard, (Option.some_inj.mp hs').symm⟩
  | resume t =>
    obtain ⟨hguard, hs'⟩ := Option.ite_none_right_eq_some.mp hstep
    exact .inr (.inl ⟨t, rfl, hguard, (Option.some_inj.mp hs').symm⟩)
  | leave t now =>
    obtain ⟨hguard, hs'⟩ := Option.ite_none_right_eq_some.mp hstep
    exact .inr (.inr (.inl ⟨t, now, rfl, hguard, (Option.some_inj.mp hs').symm⟩))
  | wake t =>
    obtain ⟨hguard, hs'⟩ := Option.ite_none_right_eq_some.mp hstep
    exact .inr (.inr (.inr ⟨t, rfl, hguard, (Option.some_inj.mp hs').symm⟩))

/-- A step changes no gender and no number of iterations. -/
theorem step_thread (h : (bathroomsim n).step s e s') (u : Fin n) :
    (s'.thread u).g = (s.thread u).g ∧ (s'.thread u).loopcount = (s.thread u).loopcount := by
  have hupdate : ∀ (t : Fin n) (x : Thread), x.g = (s.thread t).g →
      x.loopcount = (s.thread t).loopcount →
      (Function.update s.thread t x u).g = (s.thread u).g ∧
        (Function.update s.thread t x u).loopcount = (s.thread u).loopcount := by
    intro t x hg hloop
    by_cases hu : u = t
    · subst hu
      rw [Function.update_self]
      exact ⟨hg, hloop⟩
    · rw [Function.update_of_ne hu]
      exact ⟨rfl, rfl⟩
  obtain ⟨t, now, rfl, -, rfl⟩ | ⟨t, rfl, -, rfl⟩ | ⟨t, now, rfl, -, rfl⟩ | ⟨t, rfl, -, rfl⟩ :=
    step_cases h
  · exact hupdate t _ rfl rfl
  · exact hupdate t _ rfl rfl
  · have hdeparted := hupdate t
      { s.thread t with i := (s.thread t).i + 1, place := .outside } rfl rfl
    simp only [Sim.left]
    split_ifs
    · exact hdeparted
    · exact hdeparted
  · exact hupdate t _ rfl rfl

/-- Events that can be played from a start, one after the other, are a run. -/
theorem exists_run (ok : Sim n → Event n → Prop) [∀ s e, Decidable (ok s e)] (now : Timeval)
    (g : Fin n → Gender) (loopcount : Fin n → Nat) (hloop : ∀ t, 0 < loopcount t)
    {events : List (Event n)} {P : Sim n → Prop} [DecidablePred P]
    (hplay : (System.playIf Sim.step ok (start now g loopcount) events).any
      (decide <| P ·) = true) :
    ∃ s, (bathroomsim n).RunIf ok events.reverse s ∧ P s := by
  obtain ⟨s, hs, hP⟩ := (Option.any_eq_true _ _).mp hplay
  exact ⟨s, ⟨_, ⟨now, g, loopcount, hloop, rfl⟩, System.steps_of_playIf (fun _ _ _ h => h) hs⟩,
    of_decide_eq_true hP⟩

end Steps

end Cs3013.Bathroom
