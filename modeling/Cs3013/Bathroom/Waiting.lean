import Cs3013.Bathroom.Accounting

/-!
# Blocked threads and the broadcast ahead of them

A thread only blocks while somebody is inside, and the last one to leave wakes every blocked thread.
So a blocked thread always has somebody inside ahead of it, and once those inside have left it is
woken.
-/
namespace Cs3013.Bathroom

open Function Cs3013.Library.Tally Cs3013.Library.Transition

/-- While a thread is blocked the bathroom is not empty. -/
def Awaited {n : Nat} (s : Sim n) : Prop := ∀ t, s.place t = .blocked → 1 ≤ s.users

section Waiting

variable {n : Nat} {s s' : Sim n} {e : Event n} {h : List (Event n)} {t u : Fin n}

theorem blocked_of_update {p : Place} (h : update s.place t p u = .blocked) (hp : p ≠ .blocked) :
    s.place u = .blocked := by
  by_cases hu : u = t
  · subst hu
    rw [update_self] at h
    exact absurd h hp
  · rwa [update_of_ne hu] at h

theorem signalled_ne_blocked (p : Place) :
    (if p = .blocked then .woken else p) ≠ Place.blocked := by
  cases p <;> decide

theorem Awaited.turn (hs : Accounted s) (hawaited : Awaited s) (h : Turn s s' e) : Awaited s' := by
  have husers := hs.users
  intro u hu
  cases h with
  | admitted t now hplace hfree hadmits hquers hplaces hloops =>
    rw [hadmits.users]
    omega
  | queued t now hplace hvacant hother hflag husers' huses hquers hplaces hloops =>
    have hoccupied : s.users ≠ 0 := fun hzero => hvacant (hs.flag.mpr hzero)
    rw [husers']
    omega
  | resumed t hplace hadmits hquers hplaces hloops =>
    rw [hadmits.users]
    omega
  | left t now hplace hmore hflag husers' huses hquers hplaces hloops =>
    rw [husers']
    omega
  | emptied t now hplace hlast hflag husers' huses hquers hplaces hloops =>
    rw [hplaces] at hu
    exact absurd hu (signalled_ne_blocked _)
  | woken t hplace hsame hplaces hloops =>
    rw [hplaces] at hu
    rw [hsame]
    exact hawaited u (blocked_of_update hu (by decide))

theorem run_awaited {ok : Sim n → Event n → Prop} (hrun : (bathroomsim n).RunIf ok h s) :
    Accounted s ∧ Awaited s := by
  apply hrun.stateInvariant (I := fun s => Accounted s ∧ Awaited s)
  · intro s₀ hinit
    obtain ⟨now, g, loopcount, -, rfl⟩ := hinit
    refine ⟨start_accounted now g loopcount, fun t hplace => ?_⟩
    cases hplace
  · intro s e s' hs _ hstep
    have hturn := step_turn hstep
    exact ⟨hs.1.turn hturn, hs.2.turn hs.1 hturn⟩

/-- When those inside leave one after the other, the last one wakes the blocked thread. -/
theorem broadcast_ahead (hs : Accounted s) (hawaited : Awaited s)
    (hblocked : s.place t = .blocked) :
    ∃ l s', (bathroomsim n).Steps (fun _ e => e.isLeave = true) s l s' ∧ s'.place t = .woken := by
  induction hk : s.insiders generalizing s with
  | zero =>
    have husers := hs.users
    have hone := hawaited t hblocked
    omega
  | succ k ih =>
    have hpos : 0 < s.insiders := by omega
    obtain ⟨u, hu⟩ := tally_pos.mp hpos
    have hut : t ≠ u := by
      intro heq
      subst heq
      rw [hu] at hblocked
      cases hblocked
    have hstep : (bathroomsim n).step s (.leave u ⟨0, 0⟩) (s.left u ⟨0, 0⟩) := if_pos hu
    have hturn := step_turn hstep
    have hs' := hs.turn hturn
    have hawaited' := hawaited.turn hs hturn
    have husers := hs.users
    have husers' := hs'.users
    cases hturn with
    | left _ _ hplace hmore hflag hless huses hquers hplaces hloops =>
      have hblocked' : (s.left u ⟨0, 0⟩).place t = .blocked := by
        rw [hplaces, update_of_ne hut, hblocked]
      obtain ⟨l, s', hsteps, hwoken⟩ := ih hs' hawaited' hblocked' (by omega)
      exact ⟨l ++ [.leave u ⟨0, 0⟩], s', .head rfl hstep hsteps, hwoken⟩
    | emptied _ _ hplace hlast hflag hless huses hquers hplaces hloops =>
      refine ⟨[.leave u ⟨0, 0⟩], s.left u ⟨0, 0⟩, .tail .refl rfl hstep, ?_⟩
      rw [hplaces, update_of_ne hut, hblocked]
      rfl

/-- A blocked thread is never stranded: another thread is inside, and with the calls of `Leave`
that are still to come a broadcast reaches it. -/
theorem blocked_not_stranded (hrun : (bathroomsim n).Run h s) (hblocked : s.place t = .blocked) :
    1 ≤ s.users ∧ (∃ u, u ≠ t ∧ s.place u = .inside) ∧
      ∃ l s', (bathroomsim n).Steps (fun _ e => e.isLeave = true) s l s' ∧ s'.place t = .woken := by
  obtain ⟨hs, hawaited⟩ := run_awaited hrun
  have hone := hawaited t hblocked
  have husers := hs.users
  have hpos : 0 < s.insiders := by omega
  obtain ⟨u, hu⟩ := tally_pos.mp hpos
  refine ⟨hone, ⟨u, fun hut => ?_, hu⟩, broadcast_ahead hs hawaited hblocked⟩
  rw [hut, hblocked] at hu
  cases hu

end Waiting

theorem twoUsers_blocked : ∃ s : Sim 2, (bathroomsim 2).RunIf (fun _ _ => True)
    [Event.enter 0 ⟨0, 0⟩, .enter 1 ⟨0, 5⟩].reverse s ∧ s.place 1 = .blocked :=
  exists_run _ ⟨0, 0⟩ ![.male, .female] ![2, 1] (by decide) (by decide +kernel)

theorem blocked_not_stranded_two : ∃ s : Sim 2, (bathroomsim 2).Run
    [Event.enter 0 ⟨0, 0⟩, .enter 1 ⟨0, 5⟩].reverse s ∧ s.place 1 = .blocked ∧
      ∃ l s', (bathroomsim 2).Steps (fun _ e => e.isLeave = true) s l s' ∧ s'.place 1 = .woken := by
  obtain ⟨s, hrun, hblocked⟩ := twoUsers_blocked
  exact ⟨s, hrun, hblocked, (blocked_not_stranded hrun hblocked).2.2⟩

end Cs3013.Bathroom
