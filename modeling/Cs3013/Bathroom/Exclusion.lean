import Cs3013.Bathroom.Accounting

/-!
# One gender at a time

`Enter` tests the flag before it waits and not again after `pthread_cond_wait`. A thread that takes
the lock between the broadcast and the resumption of a waiter is overlooked, and the waiter
overwrites its flag. Without such a resumption all threads inside have the gender of the flag.
-/
namespace Cs3013.Bathroom

open Function Cs3013.Library.Tally Cs3013.Library.Transition

/-- All threads inside have the gender of the flag. -/
def Exclusive {n : Nat} (s : Sim n) : Prop := ∀ t, s.place t = .inside → s.flag = some (s.gender t)

/-- A waiter is resumed while the other gender uses the bathroom. -/
def Intrudes {n : Nat} (s : Sim n) : Event n → Prop
  | .resume t => s.flag ≠ vacant ∧ s.flag ≠ some (s.gender t)
  | _ => False

instance {n : Nat} (s : Sim n) (e : Event n) : Decidable (Intrudes s e) :=
  match e with
  | .resume _ => inferInstanceAs (Decidable (_ ∧ _))
  | .enter _ _ | .leave _ _ | .wake _ => inferInstanceAs (Decidable False)

section Exclusion

variable {n : Nat} {s s' : Sim n} {e : Event n} {h : List (Event n)} {t u : Fin n}

theorem Accounted.nobody (hs : Accounted s) (hflag : s.flag = vacant) (t : Fin n) :
    s.place t ≠ .inside := by
  have husers := hs.users
  have hzero := hs.flag.mp hflag
  have hinside : s.insiders = 0 := by omega
  exact tally_eq_zero.mp hinside t

theorem Accounted.somebody (hs : Accounted s) (hflag : s.flag ≠ vacant) :
    ∃ t, s.place t = .inside := by
  have husers := hs.users
  have hzero : s.users ≠ 0 := fun hu => hflag (hs.flag.mpr hu)
  have hinside : 0 < s.insiders := by omega
  exact tally_pos.mp hinside

theorem other_of_update {p q : Place} (h : update s.place t p u = q) (hpq : p ≠ q) :
    u ≠ t ∧ s.place u = q := by
  have hu : u ≠ t := by
    intro heq
    subst heq
    rw [update_self] at h
    exact hpq h
  rw [update_of_ne hu] at h
  exact ⟨hu, h⟩

/-- An admission that finds the bathroom vacant or its own gender inside. -/
theorem Exclusive.admits (hs : Accounted s) (hex : Exclusive s)
    (hgender : ∀ u, s'.gender u = s.gender u) (hfree : s.flag = vacant ∨ s.flag = some (s.gender t))
    (hflag : s'.flag = some (s.gender t)) (hplaces : s'.place = update s.place t .inside) :
    Exclusive s' := by
  intro u hu
  rw [hflag, hgender]
  by_cases hut : u = t
  · rw [hut]
  · rw [hplaces, update_of_ne hut] at hu
    rcases hfree with hvacant | hsame
    · exact absurd hu (hs.nobody hvacant u)
    · rw [← hsame]
      exact hex u hu

theorem Exclusive.turn (hs : Accounted s) (hex : Exclusive s) (h : Turn s s' e)
    (hgender : ∀ u, s'.gender u = s.gender u) (hok : ¬ Intrudes s e) : Exclusive s' := by
  have hs' := hs.turn h
  cases h with
  | admitted t now hplace hfree hadmits hquers hplaces hloops =>
    exact hex.admits hs hgender hfree hadmits.flag hplaces
  | queued t now hplace hvacant hother hflag husers huses hquers hplaces hloops =>
    intro u hu
    rw [hplaces] at hu
    rw [hflag, hgender]
    exact hex u (other_of_update hu (by decide)).2
  | resumed t hplace hadmits hquers hplaces hloops =>
    have hfree : s.flag = vacant ∨ s.flag = some (s.gender t) := by
      by_contra hnone
      rw [not_or] at hnone
      exact hok hnone
    exact hex.admits hs hgender hfree hadmits.flag hplaces
  | left t now hplace hmore hflag husers huses hquers hplaces hloops =>
    intro u hu
    rw [hplaces] at hu
    rw [hflag, hgender]
    exact hex u (other_of_update hu (by decide)).2
  | emptied t now hplace hlast hflag husers huses hquers hplaces hloops =>
    intro u hu
    exact absurd hu (hs'.nobody hflag u)
  | woken t hplace hsame hplaces hloops =>
    intro u hu
    rw [hplaces] at hu
    rw [hsame, hgender]
    exact hex u (other_of_update hu (by decide)).2

/-- The intruder has another gender than somebody who is inside. -/
theorem Exclusive.broken (hs : Accounted s) (hex : Exclusive s) (h : Turn s s' e)
    (hgender : ∀ u, s'.gender u = s.gender u) (hbad : Intrudes s e) : ¬ Exclusive s' := by
  intro hex'
  cases h with
  | resumed t hplace hadmits hquers hplaces hloops =>
    obtain ⟨hvacant, hother⟩ := hbad
    obtain ⟨u, hu⟩ := hs.somebody hvacant
    have hut : u ≠ t := by
      intro heq
      subst heq
      rw [hplace] at hu
      cases hu
    have hu' : s'.place u = .inside := by
      rw [hplaces, update_of_ne hut, hu]
    have hflag := hex' u hu'
    rw [hadmits.flag, hgender] at hflag
    rw [hex u hu, ← hflag] at hother
    exact hother rfl
  | admitted | queued | left | emptied | woken => exact hbad

/-- In a run without intruders everybody inside has the gender of the flag, and a further step
keeps it so exactly if it is no intrusion. -/
theorem exclusive_unless_intruded
    (hrun : (bathroomsim n).RunIf (fun s e => ¬ Intrudes s e) h s) :
    Exclusive s ∧ ∀ e s', (bathroomsim n).step s e s' → (Exclusive s' ↔ ¬ Intrudes s e) := by
  have hinv : Accounted s ∧ Exclusive s := by
    apply hrun.stateInvariant (I := fun s => Accounted s ∧ Exclusive s)
    · intro s₀ hinit
      obtain ⟨now, g, loopcount, -, rfl⟩ := hinit
      refine ⟨start_accounted now g loopcount, fun t hplace => ?_⟩
      cases hplace
    · intro s e s' hs hok hstep
      have hturn := step_turn hstep
      exact ⟨hs.1.turn hturn, hs.2.turn hs.1 hturn (fun u => (step_thread hstep u).1) hok⟩
  obtain ⟨hs, hex⟩ := hinv
  refine ⟨hex, fun e s' hstep => ?_⟩
  have hgender := fun u => (step_thread hstep u).1
  constructor
  · intro hex' hbad
    exact hex.broken hs (step_turn hstep) hgender hbad hex'
  · exact hex.turn hs (step_turn hstep) hgender

end Exclusion

theorem twoUsers_turns : ∃ s : Sim 2, (bathroomsim 2).RunIf (fun s e => ¬ Intrudes s e)
    [Event.enter 0 ⟨0, 0⟩, .enter 1 ⟨0, 5⟩, .leave 0 ⟨0, 9⟩, .resume 1].reverse s ∧
      s.place 1 = .inside :=
  exists_run _ ⟨0, 0⟩ ![.male, .female] ![2, 1] (by decide) (by decide +kernel)

/-- The woman who waited is resumed before the man comes back. -/
theorem exclusive_unless_intruded_two : ∃ s : Sim 2,
    (bathroomsim 2).RunIf (fun s e => ¬ Intrudes s e)
      [Event.enter 0 ⟨0, 0⟩, .enter 1 ⟨0, 5⟩, .leave 0 ⟨0, 9⟩, .resume 1].reverse s ∧
    s.place 1 = .inside ∧ s.flag = some (s.gender 1) := by
  obtain ⟨s, hrun, hplace⟩ := twoUsers_turns
  exact ⟨s, hrun, hplace, (exclusive_unless_intruded hrun).1 1 hplace⟩

theorem twoUsers_meet : ∃ s : Sim 2, (bathroomsim 2).RunIf (fun _ _ => True) twoUsers.reverse s ∧
    (s.place 0 = .inside ∧ s.place 1 = .inside ∧ s.gender 0 ≠ s.gender 1) :=
  exists_run _ ⟨0, 0⟩ ![.male, .female] ![2, 1] (by decide) (by decide +kernel)

/-- She is resumed after he has come back, and both are inside. -/
theorem exclusive_broken : ∃ s : Sim 2, (bathroomsim 2).Run twoUsers.reverse s ∧
    s.place 0 = .inside ∧ s.place 1 = .inside ∧ s.gender 0 ≠ s.gender 1 ∧ ¬ Exclusive s := by
  obtain ⟨s, hrun, hfirst, hsecond, hgender⟩ := twoUsers_meet
  refine ⟨s, hrun, hfirst, hsecond, hgender, fun hex => hgender ?_⟩
  exact Option.some_inj.mp ((hex 0 hfirst).symm.trans (hex 1 hsecond))

end Cs3013.Bathroom
