import Cs3013.Bathroom.Model
import Cs3013.Library.Tally
import Mathlib.Algebra.BigOperators.Fin
import Mathlib.Data.Fin.VecNotation

/-!
# The counters, the flag and the threads

One step moves one thread, and the counters, the flag and the places of the threads stay in step:
`users` counts the threads inside, `quers` those in `pthread_cond_wait`, and `uses` the admissions.
The flag is VACANT exactly when nobody is inside, also after a resumed thread has overwritten it.
-/
namespace Cs3013.Bathroom

open Function Cs3013.Library.Tally Cs3013.Library.Transition

/-- Inside `pthread_cond_wait`. -/
def Place.Waits (p : Place) : Prop := p = .blocked ∨ p = .woken

instance : DecidablePred Place.Waits := fun _ => inferInstanceAs (Decidable (_ ∨ _))

/-- What every admission does, at once or after a wait. -/
structure Admits (g : Gender) (a b : Globals) : Prop where
  flag : b.flag = some g
  users : b.users = a.users + 1
  uses : b.uses = a.uses + 1

section Sections

variable {g : Gender} (now : Timeval) {a : Globals}

theorem enter_admits (h : a.flag = vacant ∨ a.flag = some g) :
    Admits g a (enter g now a).1 ∧ (enter g now a).1.quers = a.quers ∧ (enter g now a).2 = 0 := by
  unfold enter
  by_cases hvacant : a.flag = vacant
  · rw [if_pos hvacant]
    exact ⟨⟨rfl, rfl, rfl⟩, rfl, rfl⟩
  · have hsame := h.resolve_left hvacant
    rw [if_neg hvacant, if_pos hsame]
    exact ⟨⟨hsame, rfl, rfl⟩, rfl, rfl⟩

theorem enter_queues (hvacant : a.flag ≠ vacant) (hother : a.flag ≠ some g) :
    enter g now a = ({ a with
      quers := a.quers + 1, ques := a.ques + 1,
      qarray := increment a.qarray (a.quers + 1) }, 1) := by
  rw [enter, if_neg hvacant, if_neg hother]

theorem resume_admits (n : Nat) : Admits g a (resume n g a) := ⟨rfl, rfl, rfl⟩

theorem leave_last (h : a.users ≤ 1) :
    leave now a = ({ a with users := a.users - 1, flag := vacant, vacstart := now }, true) := by
  rw [leave, if_pos (by omega)]

theorem leave_more (h : 1 < a.users) : leave now a = ({ a with users := a.users - 1 }, false) := by
  rw [leave, if_neg (by omega)]

end Sections

namespace Sim

variable {n : Nat} (s : Sim n)

def gender (t : Fin n) : Gender := (s.thread t).g

/-- The threads between the return of `Enter` and `Leave`. -/
def insiders : Nat := tally (· = Place.inside) s.place

def waiters : Nat := tally Place.Waits s.place

/-- The iterations that all threads have finished. -/
def loops : Int := ∑ t, ((s.thread t).i : Int)

def Finished : Prop := ∀ t, s.place t = .outside ∧ (s.thread t).i = (s.thread t).loopcount

instance : Decidable s.Finished := inferInstanceAs (Decidable (∀ _, _ ∧ _))

theorem place_of_thread (s' : Sim n) {t : Fin n} {x : Thread}
    (h : s'.thread = update s.thread t x) : s'.place = update s.place t x.place := by
  funext u
  show (s'.thread u).place = _
  rw [h]
  exact apply_update (fun _ => Thread.place) s.thread t x u

theorem loops_of_thread (s' : Sim n) {t : Fin n} {x : Thread}
    (h : s'.thread = update s.thread t x) (hi : x.i = (s.thread t).i) : s'.loops = s.loops := by
  have hsum := sum_update_add (fun x : Thread => (x.i : Int)) s.thread t x
  rw [hi] at hsum
  unfold loops
  rw [h]
  exact add_right_cancel hsum

end Sim

/-- What a step does to the flag, the counters and the places. -/
inductive Turn {n : Nat} (s s' : Sim n) : Event n → Prop where
  | admitted (t : Fin n) (now : Timeval) (hplace : s.place t = .outside)
      (hfree : s.flag = vacant ∨ s.flag = some (s.gender t))
      (hadmits : Admits (s.gender t) s.toGlobals s'.toGlobals) (hquers : s'.quers = s.quers)
      (hplaces : s'.place = update s.place t .inside) (hloops : s'.loops = s.loops) :
      Turn s s' (.enter t now)
  | queued (t : Fin n) (now : Timeval) (hplace : s.place t = .outside)
      (hvacant : s.flag ≠ vacant) (hother : s.flag ≠ some (s.gender t))
      (hflag : s'.flag = s.flag) (husers : s'.users = s.users) (huses : s'.uses = s.uses)
      (hquers : s'.quers = s.quers + 1)
      (hplaces : s'.place = update s.place t .blocked) (hloops : s'.loops = s.loops) :
      Turn s s' (.enter t now)
  | resumed (t : Fin n) (hplace : s.place t = .woken)
      (hadmits : Admits (s.gender t) s.toGlobals s'.toGlobals) (hquers : s'.quers = s.quers - 1)
      (hplaces : s'.place = update s.place t .inside) (hloops : s'.loops = s.loops) :
      Turn s s' (.resume t)
  | left (t : Fin n) (now : Timeval) (hplace : s.place t = .inside) (hmore : 1 < s.users)
      (hflag : s'.flag = s.flag) (husers : s'.users = s.users - 1) (huses : s'.uses = s.uses)
      (hquers : s'.quers = s.quers)
      (hplaces : s'.place = update s.place t .outside) (hloops : s'.loops = s.loops + 1) :
      Turn s s' (.leave t now)
  | emptied (t : Fin n) (now : Timeval) (hplace : s.place t = .inside) (hlast : s.users ≤ 1)
      (hflag : s'.flag = vacant) (husers : s'.users = s.users - 1) (huses : s'.uses = s.uses)
      (hquers : s'.quers = s.quers)
      (hplaces : ∀ u, s'.place u = if update s.place t .outside u = .blocked then .woken
        else update s.place t .outside u) (hloops : s'.loops = s.loops + 1) :
      Turn s s' (.leave t now)
  | woken (t : Fin n) (hplace : s.place t = .blocked) (hsame : s'.toGlobals = s.toGlobals)
      (hplaces : s'.place = update s.place t .woken) (hloops : s'.loops = s.loops) :
      Turn s s' (.wake t)

section Turns

variable {n : Nat} {s s' : Sim n} {e : Event n} {t : Fin n} {now : Timeval}

variable (t now) in
theorem entered_place : (s.entered t now).place = update s.place t
    (if (enter (s.gender t) now s.toGlobals).2 = 0 then .inside else .blocked) :=
  s.place_of_thread (s.entered t now) rfl

theorem entered_loops : (s.entered t now).loops = s.loops :=
  s.loops_of_thread (s.entered t now) rfl rfl

theorem entered_turn (h : s.Arrives t) : Turn s (s.entered t now) (.enter t now) := by
  by_cases hfree : s.flag = vacant ∨ s.flag = some (s.gender t)
  · obtain ⟨hadmits, hquers, hwait⟩ := enter_admits now hfree
    have hplaces := entered_place (s := s) t now
    rw [hwait, if_pos rfl] at hplaces
    exact .admitted t now h.1 hfree hadmits hquers hplaces entered_loops
  · have hvacant : s.flag ≠ vacant := fun hv => hfree (.inl hv)
    have hother : s.flag ≠ some (s.gender t) := fun hg => hfree (.inr hg)
    have henter := enter_queues now hvacant hother
    have hglobals : (s.entered t now).toGlobals = (enter (s.gender t) now s.toGlobals).1 := rfl
    have hplaces := entered_place (s := s) t now
    rw [henter] at hglobals hplaces
    have hone : ¬ (1 : Int) = 0 := by decide
    rw [if_neg hone] at hplaces
    exact .queued t now h.1 hvacant hother (by rw [hglobals]) (by rw [hglobals]) (by rw [hglobals])
      (by rw [hglobals]) hplaces entered_loops

theorem resumed_turn (h : s.place t = .woken) : Turn s (s.resumed t) (.resume t) :=
  .resumed t h (resume_admits n) rfl (s.place_of_thread (s.resumed t) rfl)
    (s.loops_of_thread (s.resumed t) rfl rfl)

theorem awake_turn (h : s.place t = .blocked) : Turn s (s.awake t) (.wake t) :=
  .woken t h rfl (s.place_of_thread (s.awake t) rfl)
    (s.loops_of_thread (s.awake t) rfl rfl)

theorem departed_place (u : Fin n) : (s.departed t u).place = update s.place t .outside u :=
  apply_update (fun _ => Thread.place) s.thread t _ u

theorem left_loops : (s.left t now).loops = s.loops + 1 := by
  have hsame : ∀ u, ((s.left t now).thread u).i = (s.departed t u).i := by
    intro u
    simp only [Sim.left]
    split_ifs <;> rfl
  have hsum : (∑ u, ((s.departed t u).i : Int)) + (s.thread t).i =
      s.loops + ((s.thread t).i + 1 : Nat) :=
    sum_update_add (fun x : Thread => (x.i : Int)) s.thread t _
  have hloops : (s.left t now).loops = ∑ u, ((s.departed t u).i : Int) := by
    simp only [Sim.loops, hsame]
  omega

theorem left_turn (h : s.place t = .inside) : Turn s (s.left t now) (.leave t now) := by
  have hglobals : (s.left t now).toGlobals = (leave now s.toGlobals).1 := rfl
  by_cases hlast : s.users ≤ 1
  · have hleave := leave_last now hlast
    have hplaces : ∀ u, (s.left t now).place u = (s.departed t u).signalled.place := by
      intro u
      simp only [Sim.place, Sim.left, hleave, if_true]
    rw [hleave] at hglobals
    exact .emptied t now h hlast (by rw [hglobals]) (by rw [hglobals]) (by rw [hglobals])
      (by rw [hglobals]) (fun u => by rw [hplaces, Thread.signalled, departed_place]) left_loops
  · have hmore : 1 < s.users := not_le.mp hlast
    have hleave := leave_more now hmore
    have hplaces : (s.left t now).place = update s.place t .outside := by
      funext u
      rw [← departed_place]
      simp only [Sim.place, Sim.left, hleave, Bool.false_eq_true, if_false]
    rw [hleave] at hglobals
    exact .left t now h hmore (by rw [hglobals]) (by rw [hglobals]) (by rw [hglobals])
      (by rw [hglobals]) hplaces left_loops

theorem step_turn (h : (bathroomsim n).step s e s') : Turn s s' e := by
  obtain ⟨t, now, rfl, harrives, rfl⟩ | ⟨t, rfl, hplace, rfl⟩ | ⟨t, now, rfl, hplace, rfl⟩ |
    ⟨t, rfl, hplace, rfl⟩ := step_cases h
  · exact entered_turn harrives
  · exact resumed_turn hplace
  · exact left_turn hplace
  · exact awake_turn hplace

end Turns

/-! ## The invariant -/

structure Accounted {n : Nat} (s : Sim n) : Prop where
  users : s.users = s.insiders
  quers : s.quers = s.waiters
  uses : s.uses = s.users + s.loops
  flag : s.flag = vacant ↔ s.users = 0

section Invariant

variable {n : Nat} {s s' : Sim n} {e : Event n} {t : Fin n}

theorem waits_signalled (p : Place) :
    Place.Waits (if p = .blocked then .woken else p) ↔ Place.Waits p := by
  cases p <;> decide

theorem inside_signalled (p : Place) :
    (if p = .blocked then .woken else p) = Place.inside ↔ p = .inside := by
  cases p <;> decide

theorem insiders_update (p : Place) (h : s'.place = update s.place t p) :
    s'.insiders = tally (· = Place.inside) (update s.place t p) := by
  rw [Sim.insiders, h]

theorem waiters_update (p : Place) (h : s'.place = update s.place t p) :
    s'.waiters = tally Place.Waits (update s.place t p) := by
  rw [Sim.waiters, h]

/-- An admission adds one thread to those inside, who are then not none. -/
theorem Accounted.admits (hs : Accounted s) (hplace : s.place t ≠ .inside)
    (hadmits : Admits (s.gender t) s.toGlobals s'.toGlobals)
    (hplaces : s'.place = update s.place t .inside) (hloops : s'.loops = s.loops)
    (hquers : s'.quers = s'.waiters) : Accounted s' := by
  have hinside : s'.insiders = s.insiders + 1 := by
    rw [insiders_update .inside hplaces]
    exact tally_gain hplace rfl
  have husers := hs.users
  have huses := hs.uses
  refine ⟨by rw [hadmits.users, hinside]; omega, hquers, ?_, ?_⟩
  · rw [hadmits.uses, hadmits.users, hloops]
    omega
  · rw [hadmits.flag, hadmits.users]
    constructor
    · intro hflag
      cases hflag
    · intro hzero
      omega

/-- Nobody gets in or out. -/
theorem Accounted.stays (hs : Accounted s) (hinside : s'.insiders = s.insiders)
    (hflag : s'.flag = s.flag) (husers : s'.users = s.users) (huses : s'.uses = s.uses)
    (hloops : s'.loops = s.loops) (hquers : s'.quers = s'.waiters) : Accounted s' where
  users := by rw [husers, hinside, hs.users]
  quers := hquers
  uses := by rw [huses, husers, hloops, hs.uses]
  flag := by
    rw [hflag, husers]
    exact hs.flag

/-- One thread leaves, and the flag becomes VACANT exactly when it is the last one. -/
theorem Accounted.leaves (hs : Accounted s) (hinside : s'.insiders + 1 = s.insiders)
    (hwaits : s'.waiters = s.waiters) (husers : s'.users = s.users - 1) (huses : s'.uses = s.uses)
    (hquers : s'.quers = s.quers) (hloops : s'.loops = s.loops + 1)
    (hflag : s'.flag = vacant ↔ s'.users = 0) : Accounted s' where
  users := by
    have hu := hs.users
    omega
  quers := by rw [hquers, hwaits, hs.quers]
  uses := by
    have hl := hs.uses
    omega
  flag := hflag

/-- One step keeps the counters and the flag in step with the threads. -/
theorem Accounted.turn (hs : Accounted s) (h : Turn s s' e) : Accounted s' := by
  cases h with
  | admitted t now hplace hfree hadmits hquers hplaces hloops =>
    apply hs.admits (by rw [hplace]; decide) hadmits hplaces hloops
    have hwaits : s'.waiters = s.waiters := by
      rw [waiters_update .inside hplaces]
      exact tally_keep (by rw [hplace]; decide)
    rw [hquers, hwaits, hs.quers]
  | queued t now hplace hvacant hother hflag husers huses hquers hplaces hloops =>
    have hinside : s'.insiders = s.insiders := by
      rw [insiders_update .blocked hplaces]
      exact tally_keep (by rw [hplace]; decide)
    have hwaits : s'.waiters = s.waiters + 1 := by
      rw [waiters_update .blocked hplaces]
      exact tally_gain (by rw [hplace]; decide) (by decide)
    apply hs.stays hinside hflag husers huses hloops
    rw [hquers, hwaits, hs.quers]
    omega
  | resumed t hplace hadmits hquers hplaces hloops =>
    apply hs.admits (by rw [hplace]; decide) hadmits hplaces hloops
    have hwaits : s'.waiters + 1 = s.waiters := by
      rw [waiters_update .inside hplaces]
      exact tally_lose (by rw [hplace]; decide) (by decide)
    rw [hquers, hs.quers]
    omega
  | left t now hplace hmore hflag husers huses hquers hplaces hloops =>
    have hinside : s'.insiders + 1 = s.insiders := by
      rw [insiders_update .outside hplaces]
      exact tally_lose hplace (by decide)
    have hwaits : s'.waiters = s.waiters := by
      rw [waiters_update .outside hplaces]
      exact tally_keep (by rw [hplace]; decide)
    have hoccupied : s.flag ≠ vacant := by
      intro hvacant
      have hzero := hs.flag.mp hvacant
      omega
    apply hs.leaves hinside hwaits husers huses hquers hloops
    rw [hflag, husers]
    exact ⟨fun hvacant => absurd hvacant hoccupied, fun hzero => by omega⟩
  | emptied t now hplace hlast hflag husers huses hquers hplaces hloops =>
    -- the broadcast moves blocked threads, which wait before and after it
    have hinside : s'.insiders + 1 = s.insiders := by
      have hlose : tally (· = Place.inside) (update s.place t .outside) + 1 = s.insiders :=
        tally_lose hplace (by decide)
      rw [← hlose]
      apply congrArg Nat.succ
      exact tally_congr fun u => by rw [hplaces, inside_signalled]
    have hwaits : s'.waiters = s.waiters := by
      have hkeep : tally Place.Waits (update s.place t .outside) = s.waiters :=
        tally_keep (by rw [hplace]; decide)
      rw [← hkeep]
      exact tally_congr fun u => by rw [hplaces, waits_signalled]
    apply hs.leaves hinside hwaits husers huses hquers hloops
    have hu := hs.users
    exact ⟨fun _ => by omega, fun _ => hflag⟩
  | woken t hplace hsame hplaces hloops =>
    have hinside : s'.insiders = s.insiders := by
      rw [insiders_update .woken hplaces]
      exact tally_keep (by rw [hplace]; decide)
    have hwaits : s'.waiters = s.waiters := by
      rw [waiters_update .woken hplaces]
      exact tally_keep (by rw [hplace]; decide)
    apply hs.stays hinside (by rw [hsame]) (by rw [hsame]) (by rw [hsame]) hloops
    rw [hsame, hwaits, hs.quers]

end Invariant

section Runs

variable {n : Nat} {h : List (Event n)} {s : Sim n}

theorem start_accounted (now : Timeval) (g : Fin n → Gender) (loopcount : Fin n → Nat) :
    Accounted (start now g loopcount) where
  users := by
    have hnone : (start now g loopcount).insiders = 0 :=
      tally_eq_zero.mpr fun _ (hplace : Place.outside = .inside) => by cases hplace
    rw [hnone]
    rfl
  quers := by
    have hnone : (start now g loopcount).waiters = 0 :=
      tally_eq_zero.mpr fun _ (hplace : Place.Waits .outside) => absurd hplace (by decide)
    rw [hnone]
    rfl
  uses := by
    have hnone : (start now g loopcount).loops = 0 := Finset.sum_eq_zero fun _ _ => rfl
    rw [hnone]
    rfl
  flag := ⟨fun _ => rfl, fun _ => rfl⟩

theorem run_accounted {ok : Sim n → Event n → Prop} (hrun : (bathroomsim n).RunIf ok h s) :
    Accounted s := by
  apply hrun.stateInvariant
  · intro s₀ hinit
    obtain ⟨now, g, loopcount, -, rfl⟩ := hinit
    exact start_accounted now g loopcount
  · intro s e s' hs _ hstep
    exact hs.turn (step_turn hstep)

def Event.isLeave : Event n → Bool
  | .leave _ _ => true
  | _ => false

/-- The iterations finished are the calls of `Leave`. -/
theorem run_loops {ok : Sim n → Event n → Prop} (hrun : (bathroomsim n).RunIf ok h s) :
    s.loops = h.countP Event.isLeave := by
  apply hrun.invariant (I := fun h s => s.loops = ((h.countP Event.isLeave : Nat) : Int))
  · intro s₀ hinit
    obtain ⟨now, g, loopcount, -, rfl⟩ := hinit
    exact Finset.sum_eq_zero fun _ _ => rfl
  · intro h s e s' hs _ hstep
    cases step_turn hstep with
    | admitted t now hplace hfree hadmits hquers hplaces hloops => exact hloops.trans hs
    | queued t now hplace hvacant hother hflag husers huses hquers hplaces hloops =>
      exact hloops.trans hs
    | resumed t hplace hadmits hquers hplaces hloops => exact hloops.trans hs
    | left t now hplace hmore hflag husers huses hquers hplaces hloops =>
      rw [hloops, hs, List.countP_cons_of_pos rfl]
      omega
    | emptied t now hplace hlast hflag husers huses hquers hplaces hloops =>
      rw [hloops, hs, List.countP_cons_of_pos rfl]
      omega
    | woken t hplace hsame hplaces hloops => exact hloops.trans hs

/-- In every state in which the lock is free the counters agree with the threads, and when all
threads have finished the bathroom is empty and `uses` is the number of their iterations. -/
theorem occupancy_accounted (hrun : (bathroomsim n).Run h s) :
    s.users = s.insiders ∧ s.quers = s.waiters ∧ s.uses - h.countP Event.isLeave = s.users ∧
      (s.flag = vacant ↔ s.users = 0) ∧
      (s.Finished → s.users = 0 ∧ s.quers = 0 ∧ s.flag = vacant ∧
        s.uses = ∑ t, ((s.thread t).loopcount : Int)) := by
  have hs := run_accounted hrun
  have hloops := run_loops hrun
  have huses := hs.uses
  refine ⟨hs.users, hs.quers, by omega, hs.flag, fun hfinished => ?_⟩
  have hinside : s.insiders = 0 := by
    apply tally_eq_zero.mpr
    intro t hplace
    rw [(hfinished t).1] at hplace
    cases hplace
  have hwaits : s.waiters = 0 := by
    apply tally_eq_zero.mpr
    intro t hplace
    rw [(hfinished t).1] at hplace
    exact absurd hplace (by decide)
  have husers := hs.users
  have hquers := hs.quers
  have hempty : s.users = 0 := by omega
  have hall : s.loops = ∑ t, ((s.thread t).loopcount : Int) := by
    apply Finset.sum_congr rfl
    intro t _
    rw [(hfinished t).2]
  exact ⟨hempty, by omega, hs.flag.mpr hempty, by rw [huses, hempty, hall, zero_add]⟩

end Runs

/-- A man uses the bathroom twice; a woman waits for his first use to end and is resumed during
his second one. -/
def twoUsers : List (Event 2) :=
  [.enter 0 ⟨0, 0⟩, .enter 1 ⟨0, 5⟩, .leave 0 ⟨0, 9⟩, .enter 0 ⟨0, 9⟩, .resume 1]

theorem twoUsers_finish : ∃ s : Sim 2, (bathroomsim 2).RunIf (fun _ _ => True)
    (twoUsers ++ [Event.leave 0 ⟨1, 0⟩, Event.leave 1 ⟨1, 2⟩]).reverse s ∧
      (s.Finished ∧ (s.thread 0).loopcount = 2 ∧ (s.thread 1).loopcount = 1) :=
  exists_run _ ⟨0, 0⟩ ![.male, .female] ![2, 1] (by decide) (by decide +kernel)

theorem occupancy_accounted_two : ∃ s : Sim 2, (bathroomsim 2).Run
    (twoUsers ++ [Event.leave 0 ⟨1, 0⟩, Event.leave 1 ⟨1, 2⟩]).reverse s ∧
      s.users = 0 ∧ s.quers = 0 ∧ s.flag = vacant ∧ s.uses = 3 := by
  obtain ⟨s, hrun, hfinished, hfirst, hsecond⟩ := twoUsers_finish
  obtain ⟨husers, hquers, hflag, huses⟩ := (occupancy_accounted hrun).2.2.2.2 hfinished
  refine ⟨s, hrun, husers, hquers, hflag, ?_⟩
  rw [huses, Fin.sum_univ_two, hfirst, hsecond]
  rfl

end Cs3013.Bathroom
