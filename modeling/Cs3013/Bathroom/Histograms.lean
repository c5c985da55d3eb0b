import Cs3013.Bathroom.Accounting

/-!
# The two histograms

`Enter` counts in `barray` and `qarray` how often `users` and `quers` took each value. Both arrays
have one cell for each thread. The queue is shorter than that, since somebody is inside while
anybody starts to wait. The bathroom can hold all threads, and a resumed waiter counts at the
number of threads instead of the number inside.
-/
namespace Cs3013.Bathroom

open Function Cs3013.Library.Tally Cs3013.Library.Transition

/-- The steps of the threads with the states before and after them. -/
abbrev Record (n : Nat) := Recorded (Sim n) (Event n)

namespace Sim

variable {n : Nat} (s s' : Sim n)

/-- Some thread gets inside. -/
def Enters : Prop := ∃ t, s.place t ≠ .inside ∧ s'.place t = .inside

/-- Some thread starts to wait. -/
def Queues : Prop := ∃ t, s.place t = .outside ∧ s'.place t = .blocked

instance : Decidable (s.Enters s') := inferInstanceAs (Decidable (∃ _, _ ∧ _))

instance : Decidable (s.Queues s') := inferInstanceAs (Decidable (∃ _, _ ∧ _))

end Sim

/-- An admission that raises `users` to `k`. -/
def Admission {n : Nat} (k : Int) (r : Record n) : Prop :=
  r.before.Enters r.after ∧ r.after.users = k

/-- The start of a wait that raises `quers` to `k`. -/
def Arrival {n : Nat} (k : Int) (r : Record n) : Prop :=
  r.before.Queues r.after ∧ r.after.quers = k

instance {n : Nat} (k : Int) (r : Record n) : Decidable (Admission k r) :=
  inferInstanceAs (Decidable (_ ∧ _))

instance {n : Nat} (k : Int) (r : Record n) : Decidable (Arrival k r) :=
  inferInstanceAs (Decidable (_ ∧ _))

/-- How often a step of the history has the property. -/
def times {n : Nat} (P : Record n → Prop) [DecidablePred P] (h : List (Record n)) : Nat :=
  h.countP (decide <| P ·)

/-- `index` is one of the `n` cells that `Initialize` allocates. -/
def InArray (n : Nat) (index : Int) : Prop := 0 ≤ index ∧ index < n

/-- The admission is not counted in the cell for `users`, or there is no such cell: a waiter goes
on, or the last thread outside gets in at once. -/
def Miscounts {n : Nat} (s : Sim n) : Event n → Prop
  | .enter t _ => (s.flag = vacant ∨ s.flag = some (s.gender t)) ∧ n ≤ s.users + 1
  | .resume _ => True
  | _ => False

instance {n : Nat} (s : Sim n) (e : Event n) : Decidable (Miscounts s e) :=
  match e with
  | .enter _ _ => inferInstanceAs (Decidable (_ ∧ _))
  | .resume _ => inferInstanceAs (Decidable True)
  | .leave _ _ | .wake _ => inferInstanceAs (Decidable False)

section Arrays

variable {g : Gender} {a : Globals} {array : Int → Int} {j k : Int}

theorem increment_self : increment array k k = array k + 1 := update_self k _ array

theorem increment_of_ne (h : j ≠ k) : increment array k j = array j := update_of_ne h _ array

/-- Only the counted cell changes. -/
theorem increment_changed : increment array k j ≠ array j ↔ j = k := by
  constructor
  · intro hchanged
    by_contra hjk
    exact hchanged (increment_of_ne hjk)
  · intro hjk
    subst hjk
    rw [increment_self]
    omega

theorem enter_arrays (now : Timeval) (h : a.flag = vacant ∨ a.flag = some g) :
    (enter g now a).1.barray = increment a.barray (a.users + 1) ∧
      (enter g now a).1.qarray = a.qarray := by
  unfold enter
  by_cases hvacant : a.flag = vacant
  · rw [if_pos hvacant]
    exact ⟨rfl, rfl⟩
  · rw [if_neg hvacant, if_pos (h.resolve_left hvacant)]
    exact ⟨rfl, rfl⟩

theorem leave_arrays (now : Timeval) (a : Globals) :
    (leave now a).1.barray = a.barray ∧ (leave now a).1.qarray = a.qarray := by
  unfold leave
  split_ifs
  · exact ⟨rfl, rfl⟩
  · exact ⟨rfl, rfl⟩

end Arrays

/-- What a step writes into the histograms. -/
inductive Marks {n : Nat} (s s' : Sim n) : Event n → Prop where
  | admitted (t : Fin n) (now : Timeval) (hfree : s.flag = vacant ∨ s.flag = some (s.gender t))
      (henters : s.Enters s') (hqueues : ¬ s.Queues s') (husers : s'.users = s.users + 1)
      (hbarray : s'.barray = increment s.barray s'.users) (hqarray : s'.qarray = s.qarray) :
      Marks s s' (.enter t now)
  | queued (t : Fin n) (now : Timeval) (hfree : ¬ (s.flag = vacant ∨ s.flag = some (s.gender t)))
      (henters : ¬ s.Enters s') (hqueues : s.Queues s') (hplace : s.place t = .outside)
      (hquers : s'.quers = s.quers + 1) (hbarray : s'.barray = s.barray)
      (hqarray : s'.qarray = increment s.qarray s'.quers) :
      Marks s s' (.enter t now)
  | resumed (t : Fin n) (henters : s.Enters s') (hqueues : ¬ s.Queues s')
      (hbarray : s'.barray = increment s.barray n) (hqarray : s'.qarray = s.qarray) :
      Marks s s' (.resume t)
  | other (e : Event n) (henters : ¬ s.Enters s') (hqueues : ¬ s.Queues s')
      (hgood : ¬ Miscounts s e) (hbarray : s'.barray = s.barray) (hqarray : s'.qarray = s.qarray) :
      Marks s s' e

section Steps

variable {n : Nat} {s s' : Sim n} {e : Event n} {t : Fin n} {p : Place}

/-- The one thread that moves gets inside. -/
theorem enters_of_update (hplace : s.place t ≠ .inside) (h : s'.place = update s.place t .inside) :
    s.Enters s' ∧ ¬ s.Queues s' := by
  refine ⟨⟨t, hplace, by rw [h, update_self]⟩, fun hqueues => ?_⟩
  obtain ⟨u, hout, hblocked⟩ := hqueues
  by_cases hu : u = t
  · subst hu
    rw [h, update_self] at hblocked
    cases hblocked
  · rw [h, update_of_ne hu, hout] at hblocked
    cases hblocked

/-- A thread that moves to any place but the inside admits nobody. -/
theorem not_enters_of_update (hp : p ≠ .inside) (h : s'.place = update s.place t p) :
    ¬ s.Enters s' := by
  intro henters
  obtain ⟨u, hbefore, hafter⟩ := henters
  by_cases hu : u = t
  · subst hu
    rw [h, update_self] at hafter
    exact hp hafter
  · rw [h, update_of_ne hu] at hafter
    exact hbefore hafter

theorem not_queues_of_update (hp : p ≠ .blocked) (h : s'.place = update s.place t p) :
    ¬ s.Queues s' := by
  intro hqueues
  obtain ⟨u, hout, hblocked⟩ := hqueues
  by_cases hu : u = t
  · subst hu
    rw [h, update_self] at hblocked
    exact hp hblocked
  · rw [h, update_of_ne hu, hout] at hblocked
    cases hblocked

/-- After a broadcast nobody is blocked, and nobody has got inside. -/
theorem nobody_of_signalled (h : ∀ u, s'.place u = if update s.place t .outside u = .blocked then
    .woken else update s.place t .outside u) : ¬ s.Enters s' ∧ ¬ s.Queues s' := by
  constructor
  · intro henters
    obtain ⟨u, hbefore, hafter⟩ := henters
    rw [h, inside_signalled] at hafter
    by_cases hu : u = t
    · subst hu
      rw [update_self] at hafter
      cases hafter
    · rw [update_of_ne hu] at hafter
      exact hbefore hafter
  · intro hqueues
    obtain ⟨u, -, hblocked⟩ := hqueues
    rw [h] at hblocked
    split_ifs at hblocked with hwas
    exact hwas hblocked

theorem step_marks (h : (bathroomsim n).step s e s') : Marks s s' e := by
  have hturn := step_turn h
  obtain ⟨t, now, rfl, -, rfl⟩ | ⟨t, rfl, hwoken, rfl⟩ | ⟨t, now, rfl, -, rfl⟩ | ⟨t, rfl, -, rfl⟩ :=
    step_cases h
  · cases hturn with
    | admitted _ _ hplace hfree hadmits hquers hplaces hloops =>
      obtain ⟨henters, hqueues⟩ := enters_of_update (by rw [hplace]; decide) hplaces
      obtain ⟨hbarray, hqarray⟩ := enter_arrays now hfree
      rw [← hadmits.users] at hbarray
      exact .admitted t now hfree henters hqueues hadmits.users hbarray hqarray
    | queued _ _ hplace hvacant hother hflag husers huses hquers hplaces hloops =>
      have hfree : ¬ (s.flag = vacant ∨ s.flag = some (s.gender t)) := not_or.mpr ⟨hvacant, hother⟩
      have hglobals : (s.entered t now).toGlobals = (enter (s.gender t) now s.toGlobals).1 := rfl
      rw [enter_queues now hvacant hother] at hglobals
      have hqueues : s.Queues (s.entered t now) := ⟨t, hplace, by rw [hplaces, update_self]⟩
      exact .queued t now hfree (not_enters_of_update (by decide) hplaces) hqueues hplace hquers
        (by rw [hglobals]) (by rw [hglobals])
  · cases hturn with
    | resumed _ hplace hadmits hquers hplaces hloops =>
      obtain ⟨henters, hqueues⟩ := enters_of_update (by rw [hplace]; decide) hplaces
      exact .resumed t henters hqueues rfl rfl
  · obtain ⟨hbarray, hqarray⟩ := leave_arrays now s.toGlobals
    cases hturn with
    | left _ _ hplace hmore hflag husers huses hquers hplaces hloops =>
      exact .other _ (not_enters_of_update (by decide) hplaces)
        (not_queues_of_update (by decide) hplaces) not_false hbarray hqarray
    | emptied _ _ hplace hlast hflag husers huses hquers hplaces hloops =>
      obtain ⟨henters, hqueues⟩ := nobody_of_signalled hplaces
      exact .other _ henters hqueues not_false hbarray hqarray
  · cases hturn with
    | woken _ hplace hsame hplaces hloops =>
      exact .other _ (not_enters_of_update (by decide) hplaces)
        (not_queues_of_update (by decide) hplaces) not_false rfl rfl

end Steps

section Counts

variable {n : Nat} {s s' : Sim n} {e : Event n} {t : Fin n} {h : List (Record n)} {j k : Int}

theorem times_cons (P : Record n → Prop) [DecidablePred P] (r : Record n) :
    times P (r :: h) = times P h + if P r then 1 else 0 := by
  simp [times, List.countP_cons]

/-- While a thread starts to wait, another one is inside, so that the queue has room. -/
theorem Accounted.queue_fits (hs : Accounted s) (hplace : s.place t = .outside)
    (hfree : ¬ (s.flag = vacant ∨ s.flag = some (s.gender t))) :
    1 ≤ s.quers + 1 ∧ s.quers + 1 ≤ n - 1 := by
  have husers := hs.users
  have hquers := hs.quers
  have hsome : s.users ≠ 0 := fun hzero => hfree (.inl (hs.flag.mpr hzero))
  have hroom : s.insiders + s.waiters < Fintype.card (Fin n) := by
    apply tally_add_tally_lt (t := t)
    · intro p hp
      subst hp
      decide
    · rw [hplace]
      decide
    · rw [hplace]
      decide
  rw [Fintype.card_fin] at hroom
  omega

/-- The waiting threads that `qarray` counts at `k`. -/
theorem qarray_step (hstep : (bathroomsim n).step s e s')
    (hq : ∀ k, s.qarray k + 1 = times (Arrival k) h) (k : Int) :
    s'.qarray k + 1 = times (Arrival k) (⟨s, e, s'⟩ :: h) := by
  rw [times_cons]
  cases step_marks hstep with
  | admitted t now hfree henters hqueues husers hbarray hqarray =>
    rw [if_neg fun harr => hqueues harr.1, hqarray, hq]
    rfl
  | queued t now hfree henters hqueues hplace hquers hbarray hqarray =>
    rw [hqarray]
    by_cases hk : k = s'.quers
    · subst hk
      rw [if_pos ⟨hqueues, rfl⟩, increment_self, hq]
      rfl
    · rw [if_neg fun harr => hk harr.2.symm, increment_of_ne hk, hq]
      rfl
  | resumed t henters hqueues hbarray hqarray =>
    rw [if_neg fun harr => hqueues harr.1, hqarray, hq]
    rfl
  | other _ henters hqueues hgood hbarray hqarray =>
    rw [if_neg fun harr => hqueues harr.1, hqarray, hq]
    rfl

/-- The admissions that `barray` counts at `k`, if the step counts right. -/
theorem barray_step (hstep : (bathroomsim n).step s e s') (hgood : ¬ Miscounts s e)
    (hb : ∀ k, s.barray k + 1 = times (Admission k) h) (k : Int) :
    s'.barray k + 1 = times (Admission k) (⟨s, e, s'⟩ :: h) := by
  rw [times_cons]
  cases step_marks hstep with
  | admitted t now hfree henters hqueues husers hbarray hqarray =>
    rw [hbarray]
    by_cases hk : k = s'.users
    · subst hk
      rw [if_pos ⟨henters, rfl⟩, increment_self, hb]
      rfl
    · rw [if_neg fun hadm => hk hadm.2.symm, increment_of_ne hk, hb]
      rfl
  | queued t now hfree henters hqueues hplace hquers hbarray hqarray =>
    rw [if_neg fun hadm => henters hadm.1, hbarray, hb]
    rfl
  | resumed t henters hqueues hbarray hqarray => exact absurd trivial hgood
  | other _ henters hqueues hgood hbarray hqarray =>
    rw [if_neg fun hadm => henters hadm.1, hbarray, hb]
    rfl

/-- A step writes outside of `barray` exactly if it miscounts. -/
theorem barray_outside_iff (hs : Accounted s) (hstep : (bathroomsim n).step s e s') :
    (∀ k, s'.barray k ≠ s.barray k → InArray n k) ↔ ¬ Miscounts s e := by
  have husers := hs.users
  cases step_marks hstep with
  | admitted t now hfree henters hqueues hadded hbarray hqarray =>
    have hchanged : ∀ k, s'.barray k ≠ s.barray k ↔ k = s'.users := by
      intro k
      rw [hbarray]
      exact increment_changed
    constructor
    · intro hall hbad
      obtain ⟨-, hlast⟩ := hbad
      have hin := hall s'.users ((hchanged _).mpr rfl)
      have hlt := hin.2
      omega
    · intro hgood k hk
      obtain rfl := (hchanged k).mp hk
      have hroom : ¬ (n ≤ s.users + 1) := fun hlast => hgood ⟨hfree, hlast⟩
      constructor <;> omega
  | queued t now hfree henters hqueues hplace hquers hbarray hqarray =>
    refine ⟨fun _ hbad => hfree hbad.1, fun _ k hk => ?_⟩
    exact absurd (congrFun hbarray k) hk
  | resumed t henters hqueues hbarray hqarray =>
    refine ⟨fun hall _ => ?_, fun hgood => absurd trivial hgood⟩
    have hin := hall n (by rw [hbarray]; exact increment_changed.mpr rfl)
    have hlt := hin.2
    omega
  | other _ henters hqueues hgood hbarray hqarray =>
    refine ⟨fun _ => hgood, fun _ k hk => ?_⟩
    exact absurd (congrFun hbarray k) hk

end Counts

section Runs

variable {n : Nat} {h : List (Record n)} {s : Sim n}

/-- For every schedule, with or without spurious wakeups: whatever a next step writes into
`qarray` lies between 1 and `n - 1`, and each cell counts the waits that raised `quers` to its
index. -/
theorem queue_histogram (hrun : (bathroomsim n).recorded.Run h s) :
    (∀ e s' k, (bathroomsim n).step s e s' → s'.qarray k ≠ s.qarray k → 1 ≤ k ∧ k ≤ n - 1) ∧
      ∀ k, s.qarray k + 1 = times (Arrival k) h := by
  constructor
  · intro e s' k hstep hchanged
    have hplain : (bathroomsim n).RunIf (fun _ _ => True) _ s := System.RunIf.forget hrun
    have hs := run_accounted hplain
    cases step_marks hstep with
    | admitted t now hfree henters hqueues husers hbarray hqarray =>
      exact absurd (congrFun hqarray k) hchanged
    | queued t now hfree henters hqueues hplace hquers hbarray hqarray =>
      rw [hqarray] at hchanged
      obtain rfl := increment_changed.mp hchanged
      rw [hquers]
      exact hs.queue_fits hplace hfree
    | resumed t henters hqueues hbarray hqarray => exact absurd (congrFun hqarray k) hchanged
    | other _ henters hqueues hgood hbarray hqarray => exact absurd (congrFun hqarray k) hchanged
  · apply hrun.invariant (I := fun (h : List (Record n)) (s : Sim n) =>
      ∀ k, s.qarray k + 1 = times (Arrival k) h)
    · intro s₀ hinit k
      obtain ⟨now, g, loopcount, -, rfl⟩ := hinit
      rfl
    · intro h s r s' hq _ hstep
      obtain ⟨before, e, after⟩ := r
      obtain ⟨rfl, rfl, hstep⟩ := hstep
      exact qarray_step hstep hq

/-- As long as no waiter goes on and no admission fills the bathroom with all threads, every write
into `barray` lies inside of it, and each cell counts the admissions that raised `users` to its
index. A further step writes inside of the array exactly if it is no such admission. -/
theorem occupancy_histogram
    (hrun : (bathroomsim n).recorded.RunIf (fun s r => ¬ Miscounts s r.label) h s) :
    (∀ r ∈ h, ∀ k, r.after.barray k ≠ r.before.barray k → InArray n k) ∧
      (∀ k, s.barray k + 1 = times (Admission k) h) ∧
      ∀ e s', (bathroomsim n).step s e s' →
        ((∀ k, s'.barray k ≠ s.barray k → InArray n k) ↔ ¬ Miscounts s e) := by
  have hplain : (bathroomsim n).RunIf (fun s e => ¬ Miscounts s e) _ s := System.RunIf.forget hrun
  have hs := run_accounted hplain
  have hinv : Accounted s ∧ (∀ r ∈ h, ∀ k, r.after.barray k ≠ r.before.barray k → InArray n k) ∧
      ∀ k, s.barray k + 1 = times (Admission k) h := by
    apply hrun.invariant (I := fun h s => Accounted s ∧
      (∀ r ∈ h, ∀ k, r.after.barray k ≠ r.before.barray k → InArray n k) ∧
        ∀ k, s.barray k + 1 = times (Admission k) h)
    · intro s₀ hinit
      obtain ⟨now, g, loopcount, -, rfl⟩ := hinit
      exact ⟨start_accounted now g loopcount, fun r hr => absurd hr List.not_mem_nil, fun _ => rfl⟩
    · intro h s r s' hinv hgood hstep
      obtain ⟨before, e, after⟩ := r
      obtain ⟨rfl, rfl, hstep⟩ := hstep
      obtain ⟨hs, hwrites, hb⟩ := hinv
      refine ⟨hs.turn (step_turn hstep), ?_, barray_step hstep hgood hb⟩
      intro r hr
      rcases List.mem_cons.mp hr with rfl | hr
      · exact (barray_outside_iff hs hstep).mpr hgood
      · exact hwrites r hr
  exact ⟨hinv.2.1, hinv.2.2, fun e s' hstep => barray_outside_iff hs hstep⟩

end Runs

theorem twoUsers_queue : ∃ s : Sim 2, (bathroomsim 2).RunIf (fun _ _ => True) twoUsers.reverse s ∧
    s.qarray 1 = 0 :=
  exists_run _ ⟨0, 0⟩ ![.male, .female] ![2, 1] (by decide) (by decide +kernel)

/-- The woman is the first in the queue, once. -/
theorem queue_histogram_two : ∃ (h : List (Record 2)) (s : Sim 2),
    h.map Recorded.label = twoUsers.reverse ∧ (bathroomsim 2).recorded.Run h s ∧
      times (Arrival 1) h = 1 := by
  obtain ⟨s, hrun, hcell⟩ := twoUsers_queue
  obtain ⟨h, hlabels, hrecorded⟩ := hrun.exists_recorded
  have hcount := (queue_histogram hrecorded).2 1
  rw [hcell] at hcount
  exact ⟨h, s, hlabels, hrecorded, by omega⟩

/-- Two users one after the other. -/
def inTurn : List (Event 2) := [.enter 0 ⟨0, 0⟩, .leave 0 ⟨0, 5⟩, .enter 1 ⟨0, 7⟩]

theorem inTurn_admitted : ∃ s : Sim 2,
    (bathroomsim 2).RunIf (fun s e => ¬ Miscounts s e) inTurn.reverse s ∧ s.barray 1 = 1 :=
  exists_run _ ⟨0, 0⟩ ![.male, .female] ![1, 1] (by decide) (by decide +kernel)

/-- Both are alone in the bathroom. -/
theorem occupancy_histogram_two : ∃ (h : List (Record 2)) (s : Sim 2),
    h.map Recorded.label = inTurn.reverse ∧
      (bathroomsim 2).recorded.RunIf (fun s r => ¬ Miscounts s r.label) h s ∧
      times (Admission 1) h = 2 := by
  obtain ⟨s, hrun, hcell⟩ := inTurn_admitted
  obtain ⟨h, hlabels, hrecorded⟩ := hrun.exists_recorded
  have hcount := (occupancy_histogram hrecorded).2.1 1
  rw [hcell] at hcount
  exact ⟨h, s, hlabels, hrecorded, by omega⟩

/-- The only user of all is counted behind the end of the array. -/
theorem occupancy_overrun : ∃ s s' : Sim 1, (bathroomsim 1).recorded.Run [] s ∧
    (bathroomsim 1).step s (.enter 0 ⟨0, 5⟩) s' ∧ s'.barray 1 ≠ s.barray 1 ∧ ¬ InArray 1 1 := by
  refine ⟨start ⟨0, 0⟩ (fun _ => .male) fun _ => 1, _, ⟨_, ⟨_, _, _, fun _ => one_pos, rfl⟩, .refl⟩,
    rfl, ?_, ?_⟩
  · decide
  · intro hin
    exact absurd hin.2 (by decide)

end Cs3013.Bathroom
