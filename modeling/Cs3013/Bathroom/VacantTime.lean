import Cs3013.Bathroom.Accounting
import Cs3013.Library.Sojourn

/-!
# The time the bathroom is vacant

A run is given a clock: every critical section happens at a moment, later ones not before earlier
ones, and what `gettimeofday` stores in a section is its moment. `vacanttime` is compared with the
time the flag has been VACANT.
-/
namespace Cs3013.Bathroom

open Function Cs3013.Library.Sojourn Cs3013.Library.Tally Cs3013.Library.Transition

/-- The program with the moment of its last critical section. -/
structure Clocked (n : Nat) extends Sim n where
  clock : Timeval

/-- A critical section and its moment. -/
structure Tick (n : Nat) where
  event : Event n
  now : Timeval

/-- What the section reads from the clock is `now`. -/
def Event.Reads {n : Nat} (now : Timeval) : Event n → Prop
  | .enter _ reading => reading = now
  | .leave _ reading => reading = now
  | .resume _ => True
  | .wake _ => True

instance {n : Nat} (now : Timeval) : DecidablePred (Event.Reads (n := n) now)
  | .enter _ reading => inferInstanceAs (Decidable (reading = now))
  | .leave _ reading => inferInstanceAs (Decidable (reading = now))
  | .resume _ => inferInstanceAs (Decidable True)
  | .wake _ => inferInstanceAs (Decidable True)

/-- The clock does not go back. -/
def Clocked.OnTime {n : Nat} (s : Clocked n) (l : Tick n) : Prop :=
  s.clock ≤ l.now ∧ l.now.Valid ∧ l.event.Reads l.now

instance {n : Nat} (s : Clocked n) (l : Tick n) : Decidable (s.OnTime l) :=
  inferInstanceAs (Decidable (_ ∧ _ ∧ _))

def Clocked.step {n : Nat} (s : Clocked n) (l : Tick n) : Option (Clocked n) :=
  if s.OnTime l then (s.toSim.step l.event).map (⟨·, l.now⟩) else none

/-- The interleavings under a clock that stands at `now₀` in `Initialize`. -/
def clockedsim (n : Nat) (now₀ : Timeval) : System (Clocked n) (Tick n) where
  init s := now₀.Valid ∧
    ∃ g loopcount, (∀ t, 0 < loopcount t) ∧ s = ⟨start now₀ g loopcount, now₀⟩
  step s l s' := s.step l = some s'

/-- The flag is VACANT. -/
def Clocked.Vacant {n : Nat} (s : Clocked n) : Prop := s.flag = vacant

instance {n : Nat} : DecidablePred (Clocked.Vacant (n := n)) := fun _ =>
  inferInstanceAs (Decidable (_ = _))

/-- The moment of a state, in microseconds. -/
def Clocked.moment {n : Nat} (s : Clocked n) : Int := s.clock.micros

/-- When the last vacancy has begun, in microseconds. -/
def Clocked.vacated {n : Nat} (s : Clocked n) : Int := s.vacstart.micros

/-- The microseconds between each moment the flag was set VACANT and the moment it was changed. -/
def vacantTime {n : Nat} (now₀ : Timeval) (h : List (Recorded (Clocked n) (Tick n))) : Int :=
  spent Clocked.Vacant Clocked.moment now₀.micros h

/-- The section ends no vacancy, or `Enter` ends it in the second in which it has begun, or a
resumed thread ends it at the moment it has begun. -/
def Counted {n : Nat} (s : Clocked n) (l : Tick n) : Prop :=
  s.Vacant → match l.event with
    | .enter _ now => now.tvSec = s.vacstart.tvSec
    | .resume _ => l.now.micros = s.vacstart.micros
    | .leave _ _ => True
    | .wake _ => True

/-! ## One section -/

/-- What a section does to the flag, `vacstart` and `vacanttime`. -/
inductive Vacancy {n : Nat} (s u : Clocked n) : Tick n → Prop where
  | arrived (t : Fin n) (now : Timeval) (hvacant : s.Vacant) (hflag : ¬ u.Vacant)
      (hstart : u.vacstart = s.vacstart)
      (htime : u.vacanttime = s.vacanttime + (now.tvUsec - s.vacstart.tvUsec)) :
      Vacancy s u ⟨.enter t now, now⟩
  | resumed (t : Fin n) (now : Timeval) (hflag : ¬ u.Vacant)
      (hstart : u.vacstart = s.vacstart) (htime : u.vacanttime = s.vacanttime) :
      Vacancy s u ⟨.resume t, now⟩
  | emptied (t : Fin n) (now : Timeval) (hoccupied : ¬ s.Vacant) (hflag : u.Vacant)
      (hstart : u.vacstart = now) (htime : u.vacanttime = s.vacanttime) :
      Vacancy s u ⟨.leave t now, now⟩
  | kept (l : Tick n) (hflag : u.flag = s.flag) (hstart : u.vacstart = s.vacstart)
      (htime : u.vacanttime = s.vacanttime) (hcounted : Counted s l) : Vacancy s u l

section Sections

variable {n : Nat} {now₀ now : Timeval} {s u : Clocked n} {l : Tick n} {t : Fin n}

theorem clocked_step (h : (clockedsim n now₀).step s l u) :
    s.OnTime l ∧ (bathroomsim n).step s.toSim l.event u.toSim ∧ u.clock = l.now := by
  have hstep : s.step l = some u := h
  obtain ⟨htime, hmap⟩ := Option.ite_none_right_eq_some.mp hstep
  obtain ⟨s', hs', rfl⟩ := Option.map_eq_some_iff.mp hmap
  exact ⟨htime, hs', rfl⟩

theorem entered_vacancy (hu : u.toSim = s.toSim.entered t now) :
    Vacancy s u ⟨.enter t now, now⟩ := by
  have hglobals : u.toGlobals = (enter (s.thread t).g now s.toGlobals).1 := by
    rw [hu]
    rfl
  by_cases hvacant : s.flag = vacant
  · rw [enter, if_pos hvacant] at hglobals
    refine .arrived t now hvacant ?_ (by rw [hglobals]) (by rw [hglobals])
    rw [Clocked.Vacant, hglobals]
    exact Option.some_ne_none _
  · have hcounted : Counted s ⟨.enter t now, now⟩ := fun h => absurd h hvacant
    by_cases hsame : s.flag = some (s.thread t).g
    · rw [enter, if_neg hvacant, if_pos hsame] at hglobals
      exact .kept _ (by rw [hglobals]) (by rw [hglobals]) (by rw [hglobals]) hcounted
    · rw [enter_queues now hvacant hsame] at hglobals
      exact .kept _ (by rw [hglobals]) (by rw [hglobals]) (by rw [hglobals]) hcounted

theorem left_vacancy (hs : Accounted s.toSim) (hplace : s.place t = .inside)
    (hu : u.toSim = s.toSim.left t now) : Vacancy s u ⟨.leave t now, now⟩ := by
  have hglobals : u.toGlobals = (leave now s.toGlobals).1 := by
    rw [hu]
    rfl
  by_cases hlast : s.users ≤ 1
  · have hpos : 0 < s.insiders := tally_pos.mpr ⟨t, hplace⟩
    have husers := hs.users
    have hoccupied : s.flag ≠ vacant := fun hvacant => by
      have hzero := hs.flag.mp hvacant
      omega
    rw [leave_last now hlast] at hglobals
    refine .emptied t now hoccupied ?_ (by rw [hglobals]) (by rw [hglobals])
    rw [Clocked.Vacant, hglobals]
  · rw [leave_more now (not_le.mp hlast)] at hglobals
    exact .kept _ (by rw [hglobals]) (by rw [hglobals]) (by rw [hglobals]) fun _ => trivial

theorem step_vacancy (hs : Accounted s.toSim) (h : (clockedsim n now₀).step s l u) :
    Vacancy s u l := by
  obtain ⟨e, now⟩ := l
  obtain ⟨⟨-, -, hreads⟩, hstep, -⟩ := clocked_step h
  obtain ⟨t, reading, rfl, -, hu⟩ | ⟨t, rfl, -, hu⟩ | ⟨t, reading, rfl, hplace, hu⟩ |
    ⟨t, rfl, -, hu⟩ := step_cases hstep
  · obtain rfl : reading = now := hreads
    exact entered_vacancy hu
  · refine .resumed t now ?_ (by rw [hu]; rfl) (by rw [hu]; rfl)
    rw [Clocked.Vacant, hu]
    exact Option.some_ne_none _
  · obtain rfl : reading = now := hreads
    exact left_vacancy hs hplace hu
  · exact .kept _ (by rw [hu]; rfl) (by rw [hu]; rfl) (by rw [hu]; rfl) fun _ => trivial

end Sections

/-! ## Whole runs -/

/-- The vacancy has not begun in the future. -/
structure InTime {n : Nat} (s : Clocked n) : Prop where
  accounted : Accounted s.toSim
  start_le : s.vacstart ≤ s.clock
  start_valid : s.vacstart.Valid

section Runs

variable {n : Nat} {now₀ : Timeval} {s u : Clocked n} {l : Tick n}

theorem InTime.init (h : (clockedsim n now₀).init s) : InTime s := by
  obtain ⟨hvalid, g, loopcount, -, rfl⟩ := h
  exact ⟨start_accounted now₀ g loopcount, le_refl _, hvalid⟩

theorem InTime.step (hs : InTime s) (h : (clockedsim n now₀).step s l u) : InTime u := by
  obtain ⟨⟨hclock, hvalid, -⟩, hstep, hnow⟩ := clocked_step h
  have haccounted := hs.accounted.turn (step_turn hstep)
  have hle : s.vacstart ≤ u.clock := by
    rw [hnow]
    exact hs.start_le.trans hclock
  cases step_vacancy hs.accounted h with
  | arrived t now hvacant hflag hstart htime =>
    exact ⟨haccounted, hstart ▸ hle, hstart ▸ hs.start_valid⟩
  | resumed t now hflag hstart htime =>
    exact ⟨haccounted, hstart ▸ hle, hstart ▸ hs.start_valid⟩
  | emptied t now hoccupied hflag hstart htime =>
    exact ⟨haccounted, by rw [hstart, hnow], hstart ▸ hvalid⟩
  | kept l hflag hstart htime hcounted =>
    exact ⟨haccounted, hstart ▸ hle, hstart ▸ hs.start_valid⟩

/-- A section adds at most the vacancy it ends, and all of it exactly if it is counted. -/
theorem vacancy_due (hs : InTime s) (h : (clockedsim n now₀).step s l u) :
    u.vacanttime - s.vacanttime ≤ due Clocked.Vacant Clocked.moment Clocked.vacated s u ∧
      (u.vacanttime - s.vacanttime = due Clocked.Vacant Clocked.moment Clocked.vacated s u ↔
        Counted s l) := by
  obtain ⟨⟨hclock, hvalid, -⟩, -, hnow⟩ := clocked_step h
  have hle : s.vacstart ≤ l.now := hs.start_le.trans hclock
  cases step_vacancy hs.accounted h with
  | arrived t now hvacant hflag hstart htime =>
    have hcounted : Counted s ⟨.enter t now, now⟩ ↔ now.tvSec = s.vacstart.tvSec :=
      ⟨fun h => h hvacant, fun h _ => h⟩
    have hsec : s.vacstart.tvSec ≤ now.tvSec := Timeval.tvSec_le hle
    have hmoment : u.clock = now := hnow
    rw [due_ended hvacant hflag, Clocked.moment, hmoment, Clocked.vacated, hcounted, htime,
      Timeval.micros, Timeval.micros]
    exact ⟨by omega, by omega, by omega⟩
  | resumed t now hflag hstart htime =>
    by_cases hvacant : s.Vacant
    · have hcounted : Counted s ⟨.resume t, now⟩ ↔ now.micros = s.vacstart.micros :=
        ⟨fun h => h hvacant, fun h _ => h⟩
      have hmicros : s.vacstart.micros ≤ now.micros :=
        Timeval.micros_le hs.start_valid hvalid hle
      have hmoment : u.clock = now := hnow
      rw [due_ended hvacant hflag, Clocked.moment, hmoment, Clocked.vacated, hcounted, htime]
      exact ⟨by omega, by omega, by omega⟩
    · rw [due_kept fun h => absurd h hvacant, htime, sub_self]
      exact ⟨le_refl _, fun _ h => absurd h hvacant, fun _ => rfl⟩
  | emptied t now hoccupied hflag hstart htime =>
    rw [due_kept fun _ => hflag, htime, sub_self]
    exact ⟨le_refl _, fun _ h => absurd h hoccupied, fun _ => rfl⟩
  | kept l hflag hstart htime hcounted =>
    have hsame : u.Vacant ↔ s.Vacant := by rw [Clocked.Vacant, hflag, Clocked.Vacant]
    rw [due_kept hsame.mpr, htime, sub_self]
    exact ⟨le_refl _, fun _ => hcounted, fun _ => rfl⟩

/-- `vacstart` and `vacanttime` against the stays of the flag at VACANT. -/
theorem vacant_stopwatch : Stopwatch (clockedsim n now₀) Clocked.Vacant Clocked.moment
    Clocked.vacated (fun s => s.vacanttime) now₀.micros InTime where
  inv_init _ := InTime.init
  inv_step _ _ _ hs h := hs.step h
  mark_init := by
    rintro s ⟨-, g, loopcount, -, rfl⟩
    rfl
  mark_step := by
    intro s l u hs h
    obtain ⟨-, -, hnow⟩ := clocked_step h
    cases step_vacancy hs.accounted h with
    | arrived t now hvacant hflag hstart htime =>
      rw [if_neg fun hboth => hboth.1 hvacant, Clocked.vacated, hstart, Clocked.vacated]
    | resumed t now hflag hstart htime =>
      rw [if_neg fun hboth => hflag hboth.2, Clocked.vacated, hstart, Clocked.vacated]
    | emptied t now hoccupied hflag hstart htime =>
      rw [if_pos ⟨hoccupied, hflag⟩, Clocked.vacated, hstart, Clocked.moment, hnow]
    | kept l hflag hstart htime hcounted =>
      have hsame : u.Vacant ↔ s.Vacant := by rw [Clocked.Vacant, hflag, Clocked.Vacant]
      rw [if_neg fun hboth => hboth.1 (hsame.mp hboth.2), Clocked.vacated, hstart, Clocked.vacated]
  total_init := by
    rintro s ⟨-, g, loopcount, -, rfl⟩
    rfl
  total_step _ _ _ hs h := (vacancy_due hs h).1

variable {h : List (Recorded (Clocked n) (Tick n))}

/-- `vacanttime` is the time the flag was VACANT exactly when every vacancy is ended by a call of
`Enter` in the same second, or by a resumed thread at once. -/
theorem vacant_time_iff (hrun : (clockedsim n now₀).recorded.Run h s) :
    s.vacanttime = vacantTime now₀ h ↔ ∀ r ∈ h, Counted r.before r.label := by
  have hsteps := hrun.mem_step (I := InTime) (fun _ => InTime.init) fun _ _ _ hs h => hs.step h
  have htotal : s.vacanttime = vacantTime now₀ h ↔ ∀ r ∈ h, _ := vacant_stopwatch.total_eq_iff hrun
  rw [htotal]
  apply forall₂_congr
  intro r hr
  obtain ⟨hs, hstep⟩ := hsteps r hr
  exact (vacancy_due hs hstep).2

end Runs

/-- Sections that can be played from `Initialize` are a run. -/
theorem exists_clocked_run {n : Nat} (now₀ : Timeval) (hvalid : now₀.Valid)
    (g : Fin n → Gender) (loopcount : Fin n → Nat) (hloop : ∀ t, 0 < loopcount t)
    (ticks : List (Tick n)) (P : List (Recorded (Clocked n) (Tick n)) × Clocked n → Prop)
    [DecidablePred P] (hplay : (System.trace Clocked.step ⟨start now₀ g loopcount, now₀⟩ []
      ticks).any (decide <| P ·) = true) :
    ∃ h s, (clockedsim n now₀).recorded.Run h s ∧ P (h, s) := by
  obtain ⟨⟨h, s⟩, htrace, hP⟩ := (Option.any_eq_true _ _).mp hplay
  have hstart : (clockedsim n now₀).recorded.Run [] ⟨start now₀ g loopcount, now₀⟩ :=
    ⟨_, ⟨hvalid, g, loopcount, hloop, rfl⟩, .refl⟩
  have hrun := System.run_of_trace (fun _ _ _ h => h) hstart htrace
  exact ⟨h, s, hrun, of_decide_eq_true hP⟩

/-- One user comes twice within one second. -/
theorem vacant_time_twice : ∃ h s, (clockedsim 1 ⟨0, 0⟩).recorded.Run h s ∧
    s.vacanttime = 8 ∧ ∀ r ∈ h, Counted r.before r.label := by
  obtain ⟨h, s, hrun, htime, hspent⟩ := exists_clocked_run ⟨0, 0⟩ (by decide) ![.male] ![2]
    (by decide)
    [⟨.enter 0 ⟨0, 5⟩, ⟨0, 5⟩⟩, ⟨.leave 0 ⟨0, 9⟩, ⟨0, 9⟩⟩, ⟨.enter 0 ⟨0, 12⟩, ⟨0, 12⟩⟩]
    (fun x => x.2.vacanttime = 8 ∧ vacantTime ⟨0, 0⟩ x.1 = 8) (by decide +kernel)
  exact ⟨h, s, hrun, htime, (vacant_time_iff hrun).mp (htime.trans hspent.symm)⟩

/-- One microsecond passes before the only use, and with it a second begins. -/
theorem vacant_across_second : ∃ h s, (clockedsim 1 ⟨0, 999999⟩).recorded.Run h s ∧
    s.Finished ∧ s.vacanttime = -999999 ∧ vacantTime ⟨0, 999999⟩ h = 1 :=
  exists_clocked_run ⟨0, 999999⟩ (by decide) ![.male] ![1] (by decide)
    [⟨.enter 0 ⟨1, 0⟩, ⟨1, 0⟩⟩, ⟨.leave 0 ⟨1, 3⟩, ⟨1, 3⟩⟩]
    (fun x => x.2.Finished ∧ x.2.vacanttime = -999999 ∧ vacantTime ⟨0, 999999⟩ x.1 = 1)
    (by decide +kernel)

end Cs3013.Bathroom
