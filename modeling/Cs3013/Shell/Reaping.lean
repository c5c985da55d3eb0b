import Cs3013.Shell.Mainprocess

/-!
# Waiting for the foreground process

`run` waits for any child. As long as each of its waits returns the process it has forked, a
process has ended when `run` returns, and `running` only lists children that are still to be reaped
when the menu is shown.
-/
namespace Cs3013.Shell

open Function Cs3013.Library.Processes Cs3013.Library.Transition

/-- What the waits are for: the process of a call of `run` has terminated when the call returns,
and the processes in `running` are unreaped children when the menu is shown. -/
structure Reaping (shell : Int) (t : Table Process) : Prop where
  foreground : ∀ c g, t.status shell = .active (.shell (.returned (some c)) g) → t.Terminated c
  listed : ∀ g, t.status shell = .active (.shell .menu g) →
    ∀ i, g.running i ≠ 0 → t.Unreaped shell (g.running i)

/-- The process that a call of `run` waits for. -/
def awaited : Status Process → Option Int
  | .active (.shell (.wait c) _) => some c
  | _ => none

/-- A wait of the shell in `run` returns the process that this call of `run` has forked. -/
def TakesOwn (shell : Int) (t : Table Process) : Event Action → Prop
  | .act p (.wait (some z)) => p = shell → ∀ c ∈ awaited (t.status shell), z = c
  | _ => True

instance (shell : Int) (t : Table Process) (e : Event Action) : Decidable (TakesOwn shell t e) := by
  unfold TakesOwn
  split <;> infer_instance

/-- The state of the shell at one place of its code. -/
structure Watched (shell : Int) (t : Table Process) (place : Place) (g : Globals) : Prop where
  listed : place ≠ .done → ∀ i, g.running i ≠ 0 → t.Unreaped shell (g.running i)
  waits : ∀ c, place = .wait c →
    t.Child shell c ∧ ∀ i, g.running i ≠ 0 → g.running i ≠ c
  returned : ∀ c, place = .returned (some c) → t.Terminated c

structure Watches (shell : Int) (t : Table Process) : Prop where
  created : t.Created shell
  watched : ∀ place g, t.status shell = .active (.shell place g) → Watched shell t place g

section Steps

variable {shell : Int} {t u : Table Process} {e : Event Action} {place : Place} {g g' : Globals}

theorem prompt_cases (h : .shell place g' = g.prompt) :
    g' = g ∧ (place = .menu ∨ place = .leaving) := by
  unfold Globals.prompt at h
  split_ifs at h <;> cases h <;> simp

theorem again_cases (h : .shell place g' = g.again) :
    g' = g ∧ (place = .mainprocess ∨ place = .leaving) := by
  unfold Globals.again at h
  split_ifs at h <;> cases h <;> simp

/-- Away from `wait` and the return of `run`. -/
theorem Watched.plain (hlisted : ∀ i, g.running i ≠ 0 → t.Unreaped shell (g.running i))
    (hplace : ∀ c, place ≠ .wait c ∧ place ≠ .returned (some c)) : Watched shell t place g :=
  ⟨fun _ => hlisted, fun c hc => absurd hc (hplace c).1, fun c hc => absurd hc (hplace c).2⟩

/-- A step of another process, or the end of one. -/
theorem Watched.other (hs : Watched shell t place g) (h : (mc2 shell).step t e u)
    (hother : ∀ l, e ≠ .act shell l) : Watched shell u place g where
  listed hplace i hi := by
    refine ((step_change h _).unreaped (hs.listed hplace i hi)).resolve_right fun hwait => ?_
    obtain ⟨a, l, b, he, -⟩ := hwait
    exact hother l he
  waits c hc := ⟨(step_change h c).child_keeps (hs.waits c hc).1, (hs.waits c hc).2⟩
  returned c hc := (step_change h c).terminated (hs.returned c hc)

/-- A step of the shell itself. -/
theorem Watched.own {a : Process} {l : Action} {x : Call Process}
    (hs : ∀ place g, a = .shell place g → Watched shell t place g)
    (hok : TakesOwn shell t (.act shell l)) (h : (mc2 shell).step t (.act shell l) u)
    (ha : t.status shell = .active a) (hx : code a l = some x) (hnext : .shell place g' = x.next) :
    Watched shell u place g' := by
  obtain ⟨hallowed, rfl⟩ := step_of_act h ha hx
  have hkeep : ∀ {q : Int}, t.Unreaped shell q → (∀ b, x ≠ .wait q b) →
      (t.after shell x).Unreaped shell q := fun hq hne => (step_change h _).keeps ha hx hq hne
  cases move_of_code hx with
  | @remove g z running hr =>
    obtain ⟨rfl, hplace⟩ := prompt_cases hnext
    refine .plain (fun i hi => ?_) ?_
    · -- the process removed is the one that has been reaped
      obtain ⟨hne, j, hj⟩ := mem_of_removebackground hr hi
      have hunreaped := (hs _ _ rfl).listed nofun j (hj ▸ hi)
      rw [hj] at hunreaped
      exact hkeep hunreaped fun b hb => hne (Call.wait.inj hb).1.symm
    · rcases hplace with rfl | rfl <;> simp
  | @poll g =>
    obtain ⟨rfl, hplace⟩ := prompt_cases hnext
    refine .plain (fun i hi => hkeep ((hs _ _ rfl).listed nofun i hi) nofun) ?_
    rcases hplace with rfl | rfl <;> simp
  | @input g g' i place hi =>
    cases hnext
    obtain ⟨⟨hrunning, -⟩, hplace⟩ := dispatch_cases hi
    refine .plain (fun i hi => ?_) ?_
    · rw [hrunning] at hi ⊢
      exact hkeep ((hs _ _ rfl).listed nofun i hi) nofun
    · rcases hplace with rfl | rfl | ⟨args, rfl | rfl⟩ <;> simp
  | @run g args c =>
    cases hnext
    have hlisted := (hs _ _ rfl).listed nofun
    refine ⟨fun _ i hi => hkeep (hlisted i hi) nofun, fun c' hc' => ?_, nofun⟩
    cases hc'
    refine ⟨(Table.fork_child _ _).child, fun i hi heq => ?_⟩
    -- a listed process has existed before the fork
    exact hallowed.2 (heq ▸ (hlisted i hi).child.2)
  | @launch g args c =>
    cases hnext
    have hlisted := (hs _ _ rfl).listed nofun
    refine .plain (fun i hi => ?_) (by simp)
    rcases addrunning_cell c g.running i with hnew | hold
    · have heq : (g.launched c).running i = c := hnew
      rw [heq]
      exact (Table.fork_child _ _)
    · have heq : (g.launched c).running i = g.running i := hold
      rw [heq] at hi ⊢
      exact hkeep (hlisted i hi) nofun
  | execvp => cases hnext
  | @notFound g args =>
    cases hnext
    exact .plain (fun i hi => hkeep ((hs _ _ rfl).listed nofun i hi) nofun) (by simp)
  | @wait g c z =>
    cases hnext
    obtain rfl : z = c := hok rfl c (by rw [ha]; rfl)
    have hwatched := hs _ _ rfl
    refine ⟨fun _ i hi => ?_, nofun, fun c hc => ?_⟩
    · have hne := (hwatched.waits z rfl).2 i hi
      exact hkeep (hwatched.listed nofun i hi) fun b hb => hne (Call.wait.inj hb).1.symm
    · cases hc
      exact Table.wait_terminated ha hallowed _
  | @noChild g c =>
    cases hnext
    have hwatched := hs _ _ rfl
    refine ⟨fun _ i hi => hkeep (hwatched.listed nofun i hi) nofun, nofun, fun c hc => ?_⟩
    cases hc
    have hterminated := (hwatched.waits _ rfl).1.terminated (Table.not_unreaped hallowed)
    exact (step_change h _).terminated hterminated
  | @loop g child running hr =>
    obtain ⟨rfl, hplace⟩ := again_cases hnext
    refine .plain (fun i hi => ?_) ?_
    · obtain ⟨-, j, hj⟩ := mem_of_removebackground hr hi
      have hunreaped := (hs _ _ rfl).listed nofun j (hj ▸ hi)
      rw [hj] at hunreaped
      exact hkeep hunreaped nofun
    · rcases hplace with rfl | rfl <;> simp
  | @await g hempty =>
    cases hnext
    exact .plain (fun i hi => hkeep ((hs _ _ rfl).listed nofun i hi) nofun) (by simp)
  | leave => cases hnext; exact ⟨fun hdone => absurd rfl hdone, nofun, nofun⟩
  | waitpid => cases hnext; exact ⟨fun hdone => absurd rfl hdone, nofun, nofun⟩
  | noneLeft => cases hnext; exact ⟨fun hdone => absurd rfl hdone, nofun, nofun⟩

theorem Watches.step (hs : Watches shell t) (hok : TakesOwn shell t e)
    (h : (mc2 shell).step t e u) : Watches shell u := by
  refine ⟨((step_change h shell).created hs.created).1, fun place g hu => ?_⟩
  rcases (step_change h shell).active_of_created hs.created hu with hsame | hacts
  · obtain ⟨ht, hother⟩ := hsame
    exact (hs.watched place g ht).other h hother
  · obtain ⟨a, l, x, rfl, ha, hx, -, hnext⟩ := hacts
    exact .own (fun place g hag => hs.watched place g (hag ▸ ha)) hok h ha hx hnext

end Steps

section Runs

variable {shell : Int} {t : Table Process} {h : List (Event Action)}

theorem watches_single (shell : Int) (commands : Fin 100 → Command) :
    Watches shell (.single shell (.shell .mainprocess (startup commands))) where
  created := Table.created_of_active (Table.single_status _)
  watched place g hg := by
    cases (Table.single_status _).symm.trans hg
    exact .plain (fun i hi => absurd rfl hi) (by simp)

theorem run_watches (hrun : (mc2 shell).RunIf (TakesOwn shell) h t) : Watches shell t := by
  refine hrun.stateInvariant ?_ fun _ _ _ hs hok hstep => hs.step hok hstep
  rintro _ ⟨-, commands, -, rfl⟩
  exact watches_single shell commands

/-- In every run in which each wait for a foreground process returns this process, the process of a
call of `run` has terminated when the call returns, and `running` only lists unreaped children when
the menu is shown. -/
theorem children_reaped (hrun : (mc2 shell).RunIf (TakesOwn shell) h t) : Reaping shell t where
  foreground c _ hg := ((run_watches hrun).watched _ _ hg).returned c rfl
  listed _ hg := ((run_watches hrun).watched _ _ hg).listed nofun

end Runs

/-! ## A process that is never removed -/

/-- The call of `removebackground` in `main` removes no process. -/
structure RemovesNone (shell : Int) (t : Table Process) : Prop where
  created : t.Created shell
  removepid : ∀ place g, t.status shell = .active (.shell place g) → g.removepid = 0

/-- A process in `running` that has been reaped without being removed. -/
structure Stale (shell z : Int) (t : Table Process) : Prop extends RemovesNone shell t where
  reaped : t.status z = .reaped
  listed : ∀ place g, t.status shell = .active (.shell place g) → ∃ i, g.running i = z

section Stale

variable {shell z c : Int} {t u : Table Process} {e : Event Action} {a : Process} {l : Action}
  {x : Call Process} {place place' : Place} {g g' : Globals} {h : List (Event Action)}

theorem move_removepid (h : Move a l x) (hnext : .shell place g' = x.next) :
    ∃ place g, a = .shell place g ∧ g'.removepid = g.removepid := by
  cases h with
  | remove hr =>
    obtain ⟨rfl, -⟩ := prompt_cases hnext
    exact ⟨_, _, rfl, rfl⟩
  | poll =>
    obtain ⟨rfl, -⟩ := prompt_cases hnext
    exact ⟨_, _, rfl, rfl⟩
  | input hi =>
    cases hnext
    exact ⟨_, _, rfl, (dispatch_cases hi).1.2.2⟩
  | loop hr =>
    obtain ⟨rfl, -⟩ := again_cases hnext
    exact ⟨_, _, rfl, rfl⟩
  | execvp => cases hnext
  | _ =>
    cases hnext
    exact ⟨_, _, rfl, rfl⟩

theorem RemovesNone.step (hs : RemovesNone shell t) (h : (mc2 shell).step t e u) :
    RemovesNone shell u where
  created := ((step_change h shell).created hs.created).1
  removepid place g hu := by
    rcases (step_change h shell).active_of_created hs.created hu with hsame | hacts
    · exact hs.removepid place g hsame.1
    · obtain ⟨a, l, x, rfl, ha, hx, -, hnext⟩ := hacts
      obtain ⟨place', g', rfl, hpid⟩ := move_removepid (move_of_code hx) hnext
      exact hpid.trans (hs.removepid place' g' ha)

theorem run_removesNone (hrun : (mc2 shell).Run h t) : RemovesNone shell t := by
  refine hrun.stateInvariant ?_ fun _ _ _ hs _ hstep => hs.step hstep
  rintro _ ⟨-, commands, -, rfl⟩
  refine ⟨Table.created_of_active (Table.single_status _), fun place g hg => ?_⟩
  cases (Table.single_status _).symm.trans hg
  rfl

/-- Only the removal of a process takes it out of `running`, at a poll or at the end of a turn. -/
theorem move_listed (h : Move (.shell place g) l x) (hnext : .shell place' g' = x.next) (hz : z ≠ 0)
    (hpoll : ∀ b, x ≠ .wait z b) (hpid : g.removepid = 0) (hlisted : ∃ i, g.running i = z) :
    ∃ i, g'.running i = z := by
  cases h with
  | @remove _ z' running hr =>
    obtain ⟨rfl, -⟩ := prompt_cases hnext
    have hne : z ≠ z' := by
      rintro rfl
      exact hpoll _ rfl
    exact removebackground_keeps hr hz hne hlisted
  | poll =>
    obtain ⟨rfl, -⟩ := prompt_cases hnext
    exact hlisted
  | input hi =>
    cases hnext
    rw [(dispatch_cases hi).1.1]
    exact hlisted
  | @launch _ args c =>
    cases hnext
    obtain ⟨i, hi⟩ := hlisted
    refine ⟨i, ?_⟩
    obtain ⟨k, hk, -, hadd⟩ | ⟨-, hadd⟩ := addrunning_cases c g.running
    · have hik : i ≠ k := fun heq => hz (by rw [← hi, heq, hk])
      simp only [Globals.launched, hadd]
      rw [update_of_ne hik, hi]
    · simp only [Globals.launched, hadd, hi]
  | loop hr =>
    obtain ⟨rfl, -⟩ := again_cases hnext
    exact removebackground_keeps hr hz (hpid ▸ hz) hlisted
  | execvp => cases hnext
  | _ =>
    cases hnext
    exact hlisted

theorem Stale.step (hs : Stale shell z t) (hz : z ≠ 0) (h : (mc2 shell).step t e u) :
    Stale shell z u where
  toRemovesNone := hs.toRemovesNone.step h
  reaped := (step_change h z).reaped_stays hs.reaped
  listed place g hu := by
    rcases (step_change h shell).active_of_created hs.created hu with hsame | hacts
    · exact hs.listed place g hsame.1
    · obtain ⟨a, l, x, rfl, ha, hx, hallowed, hnext⟩ := hacts
      obtain ⟨place', g', rfl, -⟩ := move_removepid (move_of_code hx) hnext
      refine move_listed (move_of_code hx) hnext hz ?_ (hs.removepid place' g' ha)
        (hs.listed place' g' ha)
      -- a process is only reaped once
      rintro b rfl
      have hended := hallowed.2
      rw [hs.reaped] at hended
      cases hended

/-- A wait in `run` that returns a process of `running` leaves it there for good: every later menu
lists a process that has been reaped. -/
theorem wrong_wait {h' : List (Event Action)} {v : Table Process} (hrun : (mc2 shell).Run h t)
    (hg : t.status shell = .active (.shell (.wait c) g)) (hz : z ≠ 0)
    (hlisted : ∃ i, g.running i = z)
    (hstep : (mc2 shell).step t (.act shell (.wait (some z))) u)
    (hlater : (mc2 shell).Steps (fun _ _ => True) u h' v)
    (hmenu : v.status shell = .active (.shell .menu g')) : ¬ Reaping shell v := by
  have hu : Stale shell z u := by
    refine ⟨(run_removesNone hrun).step hstep, ?_, fun place g' hg' => ?_⟩
    · obtain ⟨hended, rfl⟩ := step_of_act hstep hg rfl
      exact Table.wait_reaped hg hended _
    · obtain ⟨-, rfl⟩ := step_of_act hstep hg rfl
      cases (update_self shell _ _).symm.trans hg'
      exact hlisted
  have hv : Stale shell z v :=
    hlater.invariant (I := fun _ => Stale shell z) hu fun _ _ _ _ hs _ hstep => hs.step hz hstep
  obtain ⟨i, hi⟩ := hv.listed _ _ hmenu
  intro hgood
  have hunreaped := (hgood.listed g' hmenu i (hi ▸ hz)).2
  rw [hi, hv.reaped] at hunreaped
  cases hunreaped

end Stale

/-- The choice of a character, with nothing else to read. -/
def choose (choice : UInt8) : Action := .input ⟨some choice, [], [], []⟩

/-- The command `ls / &` is added, and started as process 2; then `whoami` as process 3. -/
def twoCommands : List (Event Action) :=
  [.act 1 (.poll none),
    .act 1 (.input ⟨some 97, ['l', 's', ' ', '/', ' ', '&', '\n'], [], []⟩), .act 1 .loop,
    .act 1 (.poll none), .act 1 (choose 51), .act 1 (.fork 2), .act 1 .loop,
    .act 1 (.poll none), .act 1 (choose 48), .act 1 (.fork 3)]

def foregroundFirst : List (Event Action) :=
  twoCommands ++ [.terminate 3, .terminate 2, .act 1 (.wait (some 3))]

def backgroundFirst : List (Event Action) :=
  twoCommands ++ [.terminate 2, .act 1 (.wait (some 2))]

theorem foregroundFirst_end : ∃ t g, (mc2 1).RunIf (TakesOwn 1) foregroundFirst.reverse t ∧
    t.status 1 = .active (.shell (.returned (some 3)) g) ∧ g.running 0 = 2 :=
  exists_run (TakesOwn 1) (by decide +kernel)

theorem children_reaped_two : ∃ t g, (mc2 1).RunIf (TakesOwn 1) foregroundFirst.reverse t ∧
    t.status 1 = .active (.shell (.returned (some 3)) g) ∧ t.Terminated 3 := by
  obtain ⟨t, g, hrun, hplace, -⟩ := foregroundFirst_end
  exact ⟨t, g, hrun, hplace, (children_reaped hrun).foreground 3 g hplace⟩

theorem backgroundFirst_end : ∃ t g, (mc2 1).Run backgroundFirst.reverse t ∧
    t.status 1 = .active (.shell (.returned (some 3)) g) ∧ ¬ t.Terminated 3 :=
  exists_run (fun _ _ => True) (by decide +kernel)

theorem backgroundFirst_menu : ∃ t g,
    (mc2 1).Run (.act 1 (.poll none) :: .act 1 .loop :: backgroundFirst.reverse) t ∧
    t.status 1 = .active (.shell .menu g) ∧ (g.running 0 = 2 ∧ ¬ t.Unreaped 1 2) :=
  exists_run (fun _ _ => True) (by decide +kernel)

/-- When the background process ends first, the wait for the foreground process returns it: `run`
returns while its process is running, and the process reaped stays in `running`. -/
theorem children_mistaken : (∃ h t, (mc2 1).Run h t ∧ ¬ Reaping 1 t) ∧
    ∃ h t g, (mc2 1).Run h t ∧ t.status 1 = .active (.shell .menu g) ∧
      ∃ i, g.running i ≠ 0 ∧ ¬ t.Unreaped 1 (g.running i) := by
  obtain ⟨t, g, hrun, hplace, hactive⟩ := backgroundFirst_end
  obtain ⟨u, g', hrun', hplace', hlisted, hreaped⟩ := backgroundFirst_menu
  refine ⟨⟨_, t, hrun, fun hgood => hactive (hgood.foreground 3 g hplace)⟩,
    _, u, g', hrun', hplace', 0, ?_, ?_⟩
  · rw [hlisted]
    decide
  · rw [hlisted]
    exact hreaped

end Cs3013.Shell
