import Cs3013.Bathroom.Waiting
import Mathlib.Algebra.Order.BigOperators.Group.Finset

/-!
# Every run ends

A thread goes through `Enter`, the wait, the bathroom and `Leave` once for each iteration of its
loop, and a woken thread never waits again. So there are at most four steps for each iteration,
whatever the schedule, and until the last one some thread can move without a spurious wakeup: all
calls of `pthread_join` in `main` return. The order is another matter, as two threads of one gender
can pass the bathroom on to each other in front of a waiter.
-/
namespace Cs3013.Bathroom

open Function Cs3013.Library.Tally Cs3013.Library.Transition

/-- What a step does to one thread that it moves. -/
inductive Thread.Goes (x : Thread) : Thread → Prop where
  | enter (wait : Int) (place : Place) (hplace : x.place = .outside) (hmore : x.i < x.loopcount)
      (hin : place ≠ .outside) : Goes x { x with wait := wait, place := place }
  | wake (hplace : x.place = .blocked) : Goes x { x with place := .woken }
  | resume (hplace : x.place = .woken) : Goes x { x with place := .inside }
  | leave (hplace : x.place = .inside) : Goes x { x with i := x.i + 1, place := .outside }

/-- The iterations that have been started or are still to come. -/
structure Thread.InLoop (x : Thread) : Prop where
  done : x.i ≤ x.loopcount
  started : x.place ≠ .outside → x.i < x.loopcount

def Place.stage : Place → Nat
  | .outside => 0
  | .blocked => 1
  | .woken => 2
  | .inside => 3

/-- The steps that a thread can still take: four for each iteration. -/
def Thread.work (x : Thread) : Nat := 4 * (x.loopcount - x.i) - x.place.stage

def Sim.work {n : Nat} (s : Sim n) : Nat := ∑ t, (s.thread t).work

def Event.isWake {n : Nat} : Event n → Bool
  | .wake _ => true
  | _ => false

section Threads

variable {x y : Thread}

theorem Thread.Goes.inLoop (h : x.Goes y) (hx : x.InLoop) : y.InLoop := by
  obtain ⟨hdone, hstarted⟩ := hx
  cases h with
  | enter wait place hplace hmore hin => exact ⟨hdone, fun _ => hmore⟩
  | wake hplace => exact ⟨hdone, fun _ => hstarted (by rw [hplace]; decide)⟩
  | resume hplace => exact ⟨hdone, fun _ => hstarted (by rw [hplace]; decide)⟩
  | leave hplace =>
    have hmore := hstarted (by rw [hplace]; decide)
    exact ⟨hmore, fun hout => absurd rfl hout⟩

/-- A thread that moves has less to do. -/
theorem Thread.Goes.work_lt (h : x.Goes y) (hx : x.InLoop) : y.work < x.work := by
  unfold Thread.work
  cases h with
  | enter wait place hplace hmore hin =>
    have hstage : 0 < place.stage := by
      cases place with
      | outside => exact absurd rfl hin
      | blocked | woken | inside => decide
    have hout : x.place.stage = 0 := by rw [hplace]; rfl
    show 4 * (x.loopcount - x.i) - place.stage < _
    omega
  | wake hplace =>
    have hmore := hx.started (by rw [hplace]; decide)
    rw [hplace]
    simp only [Place.stage]
    omega
  | resume hplace =>
    have hmore := hx.started (by rw [hplace]; decide)
    rw [hplace]
    simp only [Place.stage]
    omega
  | leave hplace =>
    have hmore := hx.started (by rw [hplace]; decide)
    rw [hplace]
    simp only [Place.stage]
    omega

end Threads

section Steps

variable {n : Nat} {s s' : Sim n} {e : Event n} {t u : Fin n} {now : Timeval}

/-- One thread moves; a broadcast moves others too. -/
def Moved (s s' : Sim n) : Prop :=
  (∀ u, s'.thread u = s.thread u ∨ (s.thread u).Goes (s'.thread u)) ∧
    ∃ t, (s.thread t).Goes (s'.thread t)

theorem Moved.of_update {x : Thread} (h : (s.thread t).Goes x)
    (hthread : s'.thread = update s.thread t x) : Moved s s' := by
  have ht : s'.thread t = x := by rw [hthread, update_self]
  refine ⟨fun u => ?_, t, ht ▸ h⟩
  by_cases hu : u = t
  · subst hu
    exact .inr (ht ▸ h)
  · rw [hthread, update_of_ne hu]
    exact .inl rfl

theorem entered_moved (h : s.Arrives t) : Moved s (s.entered t now) := by
  refine .of_update (.enter _ _ h.1 h.2 ?_) rfl
  split_ifs <;> decide

theorem left_moved (h : s.place t = .inside) : Moved s (s.left t now) := by
  have hsignalled : ∀ x : Thread, x.signalled = x ∨ x.Goes x.signalled := by
    intro x
    unfold Thread.signalled
    by_cases hx : x.place = .blocked
    · rw [if_pos hx]
      exact .inr (.wake hx)
    · rw [if_neg hx]
      exact .inl rfl
  have hself : (s.left t now).thread t =
      { s.thread t with i := (s.thread t).i + 1, place := .outside } := by
    simp only [Sim.left, Sim.departed, update_self]
    split_ifs
    · rfl
    · rfl
  refine ⟨fun u => ?_, t, hself ▸ .leave h⟩
  by_cases hu : u = t
  · subst hu
    exact .inr (hself ▸ .leave h)
  · simp only [Sim.left, Sim.departed, update_of_ne hu]
    split_ifs
    · exact hsignalled _
    · exact .inl rfl

theorem step_moved (h : (bathroomsim n).step s e s') : Moved s s' := by
  obtain ⟨t, now, rfl, harrives, rfl⟩ | ⟨t, rfl, hplace, rfl⟩ | ⟨t, now, rfl, hplace, rfl⟩ |
    ⟨t, rfl, hplace, rfl⟩ := step_cases h
  · exact entered_moved harrives
  · exact .of_update (.resume hplace) rfl
  · exact left_moved hplace
  · exact .of_update (.wake hplace) rfl

theorem Moved.inLoop (h : Moved s s') (hs : ∀ u, (s.thread u).InLoop) :
    ∀ u, (s'.thread u).InLoop := by
  intro u
  rcases h.1 u with hsame | hgoes
  · rw [hsame]
    exact hs u
  · exact hgoes.inLoop (hs u)

theorem Moved.work_lt (h : Moved s s') (hs : ∀ u, (s.thread u).InLoop) : s'.work < s.work := by
  obtain ⟨t, ht⟩ := h.2
  apply Finset.sum_lt_sum
  · intro u _
    rcases h.1 u with hsame | hgoes
    · rw [hsame]
    · exact (hgoes.work_lt (hs u)).le
  · exact ⟨t, Finset.mem_univ t, ht.work_lt (hs t)⟩

end Steps

/-! ## Progress -/

/-- What holds in every state: the counters, the broadcast ahead, and the loops. -/
structure Settled {n : Nat} (s : Sim n) : Prop where
  accounted : Accounted s
  awaited : Awaited s
  inLoop : ∀ t, (s.thread t).InLoop

section Progress

variable {n : Nat} {s s' : Sim n} {e : Event n} {h : List (Event n)} {t : Fin n}

theorem Settled.step (hs : Settled s) (h : (bathroomsim n).step s e s') : Settled s' where
  accounted := hs.accounted.turn (step_turn h)
  awaited := hs.awaited.turn hs.accounted (step_turn h)
  inLoop := (step_moved h).inLoop hs.inLoop

theorem start_settled (now : Timeval) (g : Fin n → Gender) (loopcount : Fin n → Nat) :
    Settled (start now g loopcount) where
  accounted := start_accounted now g loopcount
  awaited t hplace := by cases hplace
  inLoop t := ⟨Nat.zero_le _, fun hout => absurd rfl hout⟩

theorem run_settled {ok : Sim n → Event n → Prop} (hrun : (bathroomsim n).RunIf ok h s) :
    Settled s := by
  apply hrun.stateInvariant
  · intro s₀ hinit
    obtain ⟨now, g, loopcount, -, rfl⟩ := hinit
    exact start_settled now g loopcount
  · exact fun s e s' hs _ hstep => hs.step hstep

/-- As long as not all threads have finished, one of them can move without a spurious wakeup. -/
theorem Settled.progress (hs : Settled s) (hunfinished : ¬ s.Finished) :
    ∃ e s', e.isWake = false ∧ (bathroomsim n).step s e s' := by
  by_cases hinside : ∃ t, s.place t = .inside
  · obtain ⟨t, ht⟩ := hinside
    exact ⟨.leave t ⟨0, 0⟩, _, rfl, if_pos ht⟩
  by_cases hwoken : ∃ t, s.place t = .woken
  · obtain ⟨t, ht⟩ := hwoken
    exact ⟨.resume t, _, rfl, if_pos ht⟩
  -- with nobody inside nobody is blocked
  have hblocked : ∀ t, s.place t ≠ .blocked := by
    intro t ht
    have hone := hs.awaited t ht
    have husers := hs.accounted.users
    have hpos : 0 < s.insiders := by omega
    exact hinside (tally_pos.mp hpos)
  have hout : ∀ t, s.place t = .outside := by
    intro t
    cases hplace : s.place t with
    | outside => rfl
    | blocked => exact absurd hplace (hblocked t)
    | woken => exact absurd ⟨t, hplace⟩ hwoken
    | inside => exact absurd ⟨t, hplace⟩ hinside
  obtain ⟨t, ht⟩ := not_forall.mp hunfinished
  have hmore : (s.thread t).i < (s.thread t).loopcount :=
    lt_of_le_of_ne (hs.inLoop t).done fun heq => ht ⟨hout t, heq⟩
  exact ⟨.enter t ⟨0, 0⟩, _, rfl, if_pos ⟨hout t, hmore⟩⟩

/-- From any such state the threads can be run to their ends. -/
theorem Settled.finish (hs : Settled s) :
    ∃ l u, (bathroomsim n).Steps (fun _ e => e.isWake = false) s l u ∧ u.Finished := by
  obtain ⟨l, u, hsteps, hu, hstuck⟩ := System.exists_stuck (T := bathroomsim n)
    (fun _ e => e.isWake = false) Sim.work hs (fun _ _ _ ht _ hstep => ht.step hstep)
    fun _ _ _ ht _ hstep => (step_moved hstep).work_lt ht.inLoop
  refine ⟨l, u, hsteps, ?_⟩
  by_contra hunfinished
  obtain ⟨e, v, he, hstep⟩ := hu.progress hunfinished
  exact hstuck e v he hstep

theorem start_work (now : Timeval) (g : Fin n → Gender) (loopcount : Fin n → Nat) :
    (start now g loopcount).work = 4 * ∑ t, loopcount t := by
  rw [Finset.mul_sum]
  rfl

/-- A step keeps the numbers of iterations. -/
theorem step_loopcounts (h : (bathroomsim n).step s e s') :
    ∑ t, (s'.thread t).loopcount = ∑ t, (s.thread t).loopcount :=
  Finset.sum_congr rfl fun t _ => (step_thread h t).2

/-- No schedule deadlocks and none goes on for ever: a run has at most four steps for each iteration
of each thread, spurious wakeups included; until all threads have finished one of them can move
without a spurious wakeup, and every run can be completed. -/
theorem run_completes (hrun : (bathroomsim n).Run h s) :
    h.length ≤ 4 * ∑ t, (s.thread t).loopcount ∧
      (¬ s.Finished → ∃ e s', e.isWake = false ∧ (bathroomsim n).step s e s') ∧
      ∃ l u, (bathroomsim n).Steps (fun _ e => e.isWake = false) s l u ∧ u.Finished := by
  have hs := run_settled hrun
  refine ⟨?_, hs.progress, hs.finish⟩
  obtain ⟨s₀, ⟨now, g, loopcount, -, rfl⟩, hsteps⟩ := hrun
  have hdrift := hsteps.drift (a := 1) (b := 0) (start_settled now g loopcount)
    (fun _ _ _ ht _ hstep => ht.step hstep)
    fun _ _ _ ht _ hstep => (step_moved hstep).work_lt ht.inLoop
  have hsame := hsteps.invariant
    (I := fun _ s => ∑ t, (s.thread t).loopcount = ∑ t, loopcount t) rfl
    fun _ _ _ _ hsum _ hstep => (step_loopcounts hstep).trans hsum
  rw [start_work] at hdrift
  omega

end Progress

/-- The run of a man and a woman has taken five of its steps, and is not over. -/
theorem twoUsers_unfinished : ∃ s : Sim 2,
    (bathroomsim 2).RunIf (fun _ _ => True) twoUsers.reverse s ∧ ¬ s.Finished :=
  exists_run _ ⟨0, 0⟩ ![.male, .female] ![2, 1] (by decide) (by decide +kernel)

theorem run_completes_two : ∃ (s : Sim 2) (e : Event 2) (s' : Sim 2),
    (bathroomsim 2).Run twoUsers.reverse s ∧ e.isWake = false ∧ (bathroomsim 2).step s e s' := by
  obtain ⟨s, hrun, hunfinished⟩ := twoUsers_unfinished
  obtain ⟨e, s', he, hstep⟩ := (run_completes hrun).2.1 hunfinished
  exact ⟨s, e, s', hrun, he, hstep⟩

/-! ## Overtaking -/

/-- Thread `a` has the bathroom to itself, `c` of the other gender waits, and `a` and `b` of one
gender have been in it `m` times at most. -/
structure Relay {n : Nat} (s : Sim n) (a b c : Fin n) (m : Nat) : Prop where
  inside : s.place a = .inside
  outside : s.place b = .outside
  blocked : s.place c = .blocked
  flag : s.flag = some (s.gender a)
  same : s.gender b = s.gender a
  users : s.users = 1
  first : (s.thread a).i ≤ m
  second : (s.thread b).i ≤ m

/-- A step of another thread than `c`, and no spurious wakeup. -/
def NotBy {n : Nat} (c : Fin n) : Event n → Prop
  | .enter t _ => t ≠ c
  | .resume t => t ≠ c
  | .leave t _ => t ≠ c
  | .wake _ => False

section Overtaking

variable {n : Nat} {s : Sim n} {a b c : Fin n} {m : Nat} {now : Timeval}

theorem entered_i (t u : Fin n) : ((s.entered t now).thread u).i = (s.thread u).i := by
  by_cases hu : u = t
  · subst hu
    simp only [Sim.entered, update_self]
  · simp only [Sim.entered, update_of_ne hu]

theorem left_i (t u : Fin n) :
    ((s.left t now).thread u).i = if u = t then (s.thread u).i + 1 else (s.thread u).i := by
  by_cases hu : u = t
  · subst hu
    simp only [Sim.left, Sim.departed, update_self, Thread.signalled]
    split_ifs <;> rfl
  · simp only [Sim.left, Sim.departed, update_of_ne hu, Thread.signalled]
    split_ifs <;> rfl

/-- The second one comes in before the first one leaves, so that the bathroom is never vacant. -/
theorem Relay.pass (hs : Relay s a b c m) (hmore : m < (s.thread b).loopcount) :
    ∃ l u, (bathroomsim n).Steps (fun _ e => NotBy c e) s l u ∧ Relay u b a c (m + 1) ∧
      u.uses = s.uses + 1 := by
  have hab : a ≠ b := by
    intro heq
    have hinside := hs.inside
    rw [heq, hs.outside] at hinside
    cases hinside
  have hca : a ≠ c := by
    intro heq
    have hinside := hs.inside
    rw [heq, hs.blocked] at hinside
    cases hinside
  have hcb : b ≠ c := by
    intro heq
    have hout := hs.outside
    rw [heq, hs.blocked] at hout
    cases hout
  have henter : (bathroomsim n).step s (.enter b ⟨0, 0⟩) (s.entered b ⟨0, 0⟩) :=
    if_pos ⟨hs.outside, Nat.lt_of_le_of_lt hs.second hmore⟩
  have hgender := fun t => (step_thread henter t).1
  have husers := hs.users
  cases step_turn henter with
  | queued _ _ hplace hvacant hother => exact absurd (hs.same ▸ hs.flag) hother
  | admitted _ _ hplace hfree hadmits hquers hplaces hloops =>
    have hinside : (s.entered b ⟨0, 0⟩).place a = .inside := by
      rw [hplaces, update_of_ne hab, hs.inside]
    have hleave : (bathroomsim n).step (s.entered b ⟨0, 0⟩) (.leave a ⟨0, 0⟩)
        ((s.entered b ⟨0, 0⟩).left a ⟨0, 0⟩) := if_pos hinside
    have hgender' := fun t => (step_thread hleave t).1.trans (hgender t)
    have husers' := hadmits.users
    cases step_turn hleave with
    | emptied _ _ _ hlast => omega
    | left _ _ _ hmore' hflag hless huses' _ hplaces' _ =>
      refine ⟨[.leave a ⟨0, 0⟩, .enter b ⟨0, 0⟩], _, .tail (.tail .refl hcb henter) hca hleave, ?_,
        ?_⟩
      · constructor
        · rw [hplaces', update_of_ne hab.symm, hplaces, update_self]
        · rw [hplaces', update_self]
        · rw [hplaces', update_of_ne hca.symm, hplaces, update_of_ne hcb.symm, hs.blocked]
        · rw [hflag, hadmits.flag]
          exact congrArg some (hgender' b).symm
        · exact (hgender' a).trans (hs.same.symm.trans (hgender' b).symm)
        · omega
        · rw [left_i, if_neg hab.symm, entered_i]
          exact Nat.le_succ_of_le hs.second
        · rw [left_i, if_pos rfl, entered_i]
          exact Nat.succ_le_succ hs.first
      · rw [huses', hadmits.uses]

/-- The two can go on as long as they have iterations. -/
theorem Relay.passes (hs : Relay s a b c m) (k : Nat) (ha : m + k ≤ (s.thread a).loopcount)
    (hb : m + k ≤ (s.thread b).loopcount) :
    ∃ l u, (bathroomsim n).Steps (fun _ e => NotBy c e) s l u ∧ u.place c = .blocked ∧
      u.uses = s.uses + k := by
  induction k generalizing s a b m with
  | zero => exact ⟨[], s, .refl, hs.blocked, by omega⟩
  | succ k ih =>
    obtain ⟨l, u, hsteps, hu, huses⟩ := hs.pass (by omega)
    have hloop : ∀ t, (u.thread t).loopcount = (s.thread t).loopcount := by
      intro t
      exact hsteps.invariant (I := fun _ u => (u.thread t).loopcount = (s.thread t).loopcount) rfl
        fun _ _ _ _ hsame _ hstep => (step_thread hstep t).2.trans hsame
    obtain ⟨l', v, hsteps', hblocked, huses'⟩ := ih hu (by rw [hloop]; omega) (by rw [hloop]; omega)
    exact ⟨l' ++ l, v, hsteps.append hsteps', hblocked, by push_cast; omega⟩

/-- Two threads of one gender start, and one of the other gender comes in between. -/
theorem start_relay (g : Fin n → Gender) (loopcount : Fin n → Nat) (hloop : ∀ t, 0 < loopcount t)
    (hab : a ≠ b) (hsame : g a = g b) (hother : g c ≠ g a) :
    ∃ s, (bathroomsim n).Run [.enter c ⟨0, 0⟩, .enter a ⟨0, 0⟩] s ∧ Relay s a b c 0 ∧
      ∀ t, (s.thread t).g = g t ∧ (s.thread t).loopcount = loopcount t := by
  have hac : c ≠ a := fun heq => hother (heq ▸ rfl)
  have hbc : c ≠ b := fun heq => hother (heq ▸ hsame.symm)
  have hfirst : (bathroomsim n).step (start ⟨0, 0⟩ g loopcount) (.enter a ⟨0, 0⟩)
      ((start ⟨0, 0⟩ g loopcount).entered a ⟨0, 0⟩) := if_pos ⟨rfl, hloop a⟩
  generalize hu : (start ⟨0, 0⟩ g loopcount).entered a ⟨0, 0⟩ = u at hfirst
  cases step_turn hfirst with
  | queued _ _ hplace hvacant => exact absurd rfl hvacant
  | admitted _ _ hplace hfree hadmits hquers hplaces hloops =>
    have hthread := step_thread hfirst
    have hout : u.place c = .outside := by
      rw [hplaces, update_of_ne hac]
      rfl
    have hi : ∀ t, (u.thread t).i = 0 := by
      intro t
      rw [← hu, entered_i]
      rfl
    have hsecond : (bathroomsim n).step u (.enter c ⟨0, 0⟩) (u.entered c ⟨0, 0⟩) := by
      apply if_pos
      refine ⟨hout, ?_⟩
      rw [hi, (hthread c).2]
      exact hloop c
    have hthread' := step_thread hsecond
    refine ⟨_, ⟨_, ⟨⟨0, 0⟩, g, loopcount, hloop, rfl⟩, .tail (.tail .refl trivial hfirst) trivial
      hsecond⟩, ?_, fun t =>
        ⟨(hthread' t).1.trans (hthread t).1, (hthread' t).2.trans (hthread t).2⟩⟩
    have hgender : ∀ t, (u.entered c ⟨0, 0⟩).gender t = g t := fun t =>
      (hthread' t).1.trans (hthread t).1
    have hoccupied : u.flag = some (g a) := hadmits.flag
    cases step_turn hsecond with
    | admitted _ _ _ hfree' =>
      have hc : u.gender c = g c := (hthread c).1
      rcases hfree' with hvacant | hflag
      · rw [hoccupied] at hvacant
        cases hvacant
      · rw [hoccupied, hc] at hflag
        exact absurd (Option.some_inj.mp hflag).symm hother
    | queued _ _ _ _ _ hflag husers _ _ hplaces' _ =>
      constructor
      · rw [hplaces', update_of_ne hac.symm, hplaces, update_self]
      · rw [hplaces', update_of_ne hbc.symm, hplaces, update_of_ne hab.symm]
        rfl
      · rw [hplaces', update_self]
      · rw [hflag, hoccupied, hgender]
      · rw [hgender, hgender, hsame]
      · rw [husers, hadmits.users]
        rfl
      · rw [entered_i, hi]
      · rw [entered_i, hi]

/-- A waiter can be overtaken as often as two threads of the other gender have iterations: they pass
the bathroom on to each other, and the broadcast that would wake the waiter does not come. -/
theorem waiter_overtaken (g : Fin n → Gender) (loopcount : Fin n → Nat)
    (hloop : ∀ t, 0 < loopcount t) (hab : a ≠ b) (hsame : g a = g b) (hother : g c ≠ g a) (k : Nat)
    (ha : k ≤ loopcount a) (hb : k ≤ loopcount b) :
    ∃ h s l u, (bathroomsim n).Run h s ∧
      (∀ t, (s.thread t).g = g t ∧ (s.thread t).loopcount = loopcount t) ∧
      s.place c = .blocked ∧ (bathroomsim n).Steps (fun _ e => NotBy c e) s l u ∧
      u.place c = .blocked ∧ u.uses = s.uses + k := by
  obtain ⟨s, hrun, hs, hthread⟩ := start_relay g loopcount hloop hab hsame hother
  obtain ⟨l, u, hsteps, hblocked, huses⟩ := hs.passes k
    (by rw [(hthread a).2, Nat.zero_add]; exact ha) (by rw [(hthread b).2, Nat.zero_add]; exact hb)
  exact ⟨_, s, l, u, hrun, hthread, hs.blocked, hsteps, hblocked, huses⟩

end Overtaking

/-- A woman waits while two men come in a thousand times. -/
theorem waiter_overtaken_thousand : ∃ h s l u, (bathroomsim 3).Run h s ∧
    (∀ t, (s.thread t).g = ![.male, .male, .female] t ∧
      (s.thread t).loopcount = ![1000, 1000, 1] t) ∧
    s.place 2 = .blocked ∧ (bathroomsim 3).Steps (fun _ e => NotBy 2 e) s l u ∧
    u.place 2 = .blocked ∧ u.uses = s.uses + (1000 : Nat) :=
  waiter_overtaken (a := 0) (b := 1) ![.male, .male, .female] ![1000, 1000, 1] (by decide)
    (by decide) rfl (by decide) 1000 le_rfl le_rfl

end Cs3013.Bathroom
