import Cs3013.Shell.Reaping

/-!
# The end of the shell

Behind its loop `main` looks whether `running` lists a process, and waits for one child then. All
background processes have terminated when `main` returns if they have when the loop ends, or if
there is only one child left to wait for; with two children left, the wait may return either.
-/
namespace Cs3013.Shell

open Function Cs3013.Library.Processes Cs3013.Library.Transition

/-- The shell has at most one child that it has not waited for. -/
def OneLeft (shell : Int) (t : Table Process) : Prop :=
  ∀ c ∈ t.pids, ∀ d ∈ t.pids, t.Unreaped shell c → t.Unreaped shell d → c = d

instance (shell : Int) (t : Table Process) : Decidable (OneLeft shell t) :=
  inferInstanceAs (Decidable (∀ c ∈ t.pids, ∀ d ∈ t.pids, _))

/-- When the loop of `main` has ended, every background process has terminated, or `running` lists
a process and no more than one child is left. -/
def Covered (shell : Int) (t : Table Process) : Prop :=
  ∀ x ∈ shellOf t shell, x.1 = .leaving → (∀ c ∈ x.2.added, t.Terminated c) ∨
    emptybackground x.2.running = 0 ∧ OneLeft shell t

instance (shell : Int) (t : Table Process) : Decidable (Covered shell t) :=
  inferInstanceAs (Decidable (∀ x ∈ shellOf t shell, _))

section Moves

variable {a : Process} {l : Action} {x : Call Process} {place : Place} {g' : Globals}

/-- Only the start of a background process extends the list of them. -/
theorem move_added (h : Move a l x) (hnext : .shell place g' = x.next) :
    ∃ place g, a = .shell place g ∧
      (g'.added = g.added ∨ ∃ c b b', x = .fork c b b' ∧ g'.added = g.added ++ [c]) := by
  cases h with
  | remove hr =>
    obtain ⟨rfl, -⟩ := prompt_cases hnext
    exact ⟨_, _, rfl, .inl rfl⟩
  | poll =>
    obtain ⟨rfl, -⟩ := prompt_cases hnext
    exact ⟨_, _, rfl, .inl rfl⟩
  | input hi =>
    cases hnext
    exact ⟨_, _, rfl, .inl (dispatch_cases hi).1.2.1⟩
  | launch =>
    cases hnext
    refine ⟨_, _, rfl, ?_⟩
    unfold Globals.launched
    dsimp only
    split_ifs
    · exact .inl rfl
    · exact .inr ⟨_, _, _, rfl, rfl⟩
  | execvp => cases hnext
  | loop hr =>
    obtain ⟨rfl, -⟩ := again_cases hnext
    exact ⟨_, _, rfl, .inl rfl⟩
  | _ =>
    cases hnext
    exact ⟨_, _, rfl, .inl rfl⟩

/-- The last wait begins behind the loop. -/
theorem move_waitpid (h : Move a l x) (hnext : .shell .waitpid g' = x.next) :
    ∃ g, a = .shell .leaving g ∧ emptybackground g.running = 0 ∧ g'.added = g.added ∧
      x = .step (.shell .waitpid g') := by
  cases h with
  | remove hr => simpa using (prompt_cases hnext).2
  | poll => simpa using (prompt_cases hnext).2
  | input hi =>
    cases hnext
    simpa using (dispatch_cases hi).2
  | loop hr => simpa using (again_cases hnext).2
  | await hempty =>
    cases hnext
    exact ⟨_, rfl, hempty, rfl, rfl⟩
  | _ => cases hnext

/-- The return of `main`, without a wait or after it. -/
theorem move_done (h : Move a l x) (hnext : .shell .done g' = x.next) :
    (∃ g, a = .shell .leaving g ∧ emptybackground g.running ≠ 0 ∧ g'.added = g.added) ∨
    a = .shell .waitpid g' ∧
      ((∃ z, x = .wait z (.shell .done g')) ∨ x = .fail (.shell .done g')) := by
  cases h with
  | remove hr => simpa using (prompt_cases hnext).2
  | poll => simpa using (prompt_cases hnext).2
  | input hi =>
    cases hnext
    simpa using (dispatch_cases hi).2
  | loop hr => simpa using (again_cases hnext).2
  | leave hempty =>
    cases hnext
    exact .inl ⟨_, rfl, hempty, rfl⟩
  | waitpid =>
    cases hnext
    exact .inr ⟨rfl, .inl ⟨_, rfl⟩⟩
  | noneLeft =>
    cases hnext
    exact .inr ⟨rfl, .inr rfl⟩
  | _ => cases hnext

end Moves

/-- The shell is not its own child, and its background processes are its children. -/
structure Owns (shell : Int) (t : Table Process) : Prop where
  created : t.Created shell
  rooted : t.parent shell ≠ shell
  added : ∀ place g, t.status shell = .active (.shell place g) → ∀ c ∈ g.added, t.Child shell c

/-- What the last wait of the shell has to do. -/
structure Settles (shell : Int) (t : Table Process) : Prop extends Owns shell t where
  waitpid : ∀ g, t.status shell = .active (.shell .waitpid g) →
    (∀ c ∈ g.added, t.Terminated c) ∨ OneLeft shell t
  done : ∀ g, t.status shell = .active (.shell .done g) → ∀ c ∈ g.added, t.Terminated c

section Steps

variable {shell : Int} {t u : Table Process} {e : Event Action}

theorem Owns.step (hs : Owns shell t) (h : (mc2 shell).step t e u) : Owns shell u := by
  obtain ⟨hcreated, hparent⟩ := (step_change h shell).created hs.created
  refine ⟨hcreated, hparent ▸ hs.rooted, fun place g hu c hc => ?_⟩
  rcases (step_change h shell).active_of_created hs.created hu with hsame | hacts
  · exact (step_change h c).child_keeps (hs.added place g hsame.1 c hc)
  · obtain ⟨a, l, x, rfl, ha, hx, -, hnext⟩ := hacts
    obtain ⟨place', g', rfl, hadded | ⟨d, b, b', rfl, hadded⟩⟩ := move_added (move_of_code hx) hnext
    · exact (step_change h c).child_keeps (hs.added place' g' ha c (hadded ▸ hc))
    · rw [hadded, List.mem_append, List.mem_singleton] at hc
      rcases hc with hold | rfl
      · exact (step_change h c).child_keeps (hs.added place' g' ha c hold)
      · obtain ⟨-, rfl⟩ := step_of_act h ha hx
        exact (Table.fork_child b b').child

/-- No step but a fork of the shell gives it more children. -/
theorem OneLeft.keeps (ht : OneLeft shell t) (h : (mc2 shell).step t e u)
    (hfork : ∀ a l c b b', e = .act shell l → t.status shell = .active a →
      code a l ≠ some (.fork c b b')) : OneLeft shell u := by
  have hchild : ∀ c, u.Unreaped shell c → t.Unreaped shell c := by
    intro c hc
    refine ((step_change h c).child hc).resolve_right fun hnew => ?_
    obtain ⟨a, l, b, b', he, ha, hx⟩ := hnew
    exact hfork a l c b b' he ha hx
  intro c _ d _ hc hd
  have hc := hchild c hc
  have hd := hchild d hd
  exact ht c (t.listed c hc.child.2) d (t.listed d hd.child.2) hc hd

theorem Settles.step (hs : Settles shell t) (hok : Covered shell t) (h : (mc2 shell).step t e u) :
    Settles shell u := by
  have hkeep : ∀ {c : Int}, t.Terminated c → u.Terminated c :=
    fun hc => (step_change h _).terminated hc
  refine ⟨hs.toOwns.step h, fun g hu => ?_, fun g hu => ?_⟩
  · rcases (step_change h shell).active_of_created hs.created hu with hsame | hacts
    · obtain ⟨ht, hother⟩ := hsame
      exact (hs.waitpid g ht).imp (fun hall c hc => hkeep (hall c hc)) fun hone =>
        hone.keeps h fun a l c b b' he => absurd he (hother l)
    · obtain ⟨a, l, x, rfl, ha, hx, -, hnext⟩ := hacts
      obtain ⟨g', rfl, hempty, hadded, rfl⟩ := move_waitpid (move_of_code hx) hnext
      refine (hok (.leaving, g') (by rw [shellOf, ha]; rfl) rfl).imp (fun hall c hc => ?_)
        fun hcover => hcover.2.keeps h fun a l' c b b' he ha' hx' => ?_
      · exact hkeep (hall c (hadded ▸ hc))
      · obtain ⟨-, rfl⟩ := Event.act.inj he
        obtain rfl := Status.active.inj (ha.symm.trans ha')
        cases hx.symm.trans hx'
  · rcases (step_change h shell).active_of_created hs.created hu with hsame | hacts
    · exact fun c hc => hkeep (hs.done g hsame.1 c hc)
    · obtain ⟨a, l, x, rfl, ha, hx, hallowed, hnext⟩ := hacts
      intro c hc
      rcases move_done (move_of_code hx) hnext with hleave | hwait
      · obtain ⟨g', rfl, hempty, hadded⟩ := hleave
        have hcover := hok (.leaving, g') (by rw [shellOf, ha]; rfl) rfl
        exact hkeep (hcover.resolve_right (fun hone => hempty hone.1) c (hadded ▸ hc))
      · obtain ⟨rfl, hz⟩ := hwait
        rcases hs.waitpid g ha with hall | hone
        · exact hkeep (hall c hc)
        · have hchild := hs.added _ g ha c hc
          by_cases hleft : t.Unreaped shell c
          · -- the only child left is the one that the wait returns
            rcases hz with ⟨z, rfl⟩ | rfl
            · have hended : t.Ended shell z := hallowed
              have hz := hended.unreaped
              obtain rfl := hone c (t.listed c hchild.2) z (t.listed z hz.child.2) hleft hz
              obtain ⟨-, rfl⟩ := step_of_act h ha hx
              exact Table.wait_terminated ha hended _
            · exact absurd hleft (Table.not_unreaped hallowed)
          · exact hkeep (hchild.terminated hleft)

end Steps

section Runs

variable {shell : Int} {t : Table Process} {h : List (Event Action)} {g : Globals} {c : Int}

theorem owns_single (hshell : 0 < shell) (commands : Fin 100 → Command) :
    Owns shell (.single shell (.shell .mainprocess (startup commands))) where
  created := Table.created_of_active (Table.single_status _)
  rooted := hshell.ne
  added place g hg c hc := by
    cases (Table.single_status _).symm.trans hg
    cases hc

theorem run_owns (hrun : (mc2 shell).Run h t) : Owns shell t := by
  refine hrun.stateInvariant ?_ fun _ _ _ hs _ hstep => hs.step hstep
  rintro _ ⟨hshell, commands, -, rfl⟩
  exact owns_single hshell commands

theorem run_settles (hrun : (mc2 shell).RunIf (fun t _ => Covered shell t) h t) :
    Settles shell t := by
  refine hrun.stateInvariant ?_ fun _ _ _ hs hok hstep => hs.step hok hstep
  rintro _ ⟨hshell, commands, -, rfl⟩
  refine ⟨owns_single hshell commands, fun g hg => ?_, fun g hg => ?_⟩
  · cases (Table.single_status _).symm.trans hg
  · cases (Table.single_status _).symm.trans hg

/-- Without a process in `running`, `main` returns at once. -/
theorem leaves_at_once (hg : t.status shell = .active (.shell .leaving g))
    (hempty : emptybackground g.running ≠ 0) (hc : ¬ t.Terminated c) :
    ∃ l u, (mc2 shell).Steps (fun _ _ => True) t l u ∧
      u.status shell = .active (.shell .done { g with leave := 1 }) ∧ ¬ u.Terminated c := by
  have hcode : code (.shell .leaving g) .leave =
      some (.step (.shell .done { g with leave := 1 })) := by
    simp only [code, if_neg hempty]
  obtain ⟨u, hstep, hu, -, hsame⟩ := exists_step hg hcode
  exact ⟨_, u, .tail .refl trivial hstep, hu, Table.not_terminated hu (hsame c) hc⟩

/-- The last wait may return any child. -/
theorem leaves_after_wait (hg : t.status shell = .active (.shell .leaving g))
    (hempty : emptybackground g.running = 0) {d : Int} (hd : t.Unreaped shell d) (hds : d ≠ shell)
    (hc : ¬ t.Terminated c) (hcd : c ≠ d) :
    ∃ l u, (mc2 shell).Steps (fun _ _ => True) t l u ∧
      u.status shell = .active (.shell .done { g with leave := 1 }) ∧ ¬ u.Terminated c := by
  obtain ⟨l, t₁, hsteps, hended₁, hsame₁⟩ : ∃ l u, (mc2 shell).Steps (fun _ _ => True) t l u ∧
      u.Ended shell d ∧ ∀ q, q ≠ d → u.status q = t.status q := exists_ended hd
  have hg₁ : t₁.status shell = .active (.shell .leaving g) := (hsame₁ shell hds.symm).trans hg
  have hc₁ := Table.not_terminated hg₁ (fun _ => hsame₁ c hcd) hc
  have hcode : code (.shell .leaving g) .leave =
      some (.step (.shell .waitpid { g with leave := 1 })) := by
    simp only [code, if_pos hempty]
  obtain ⟨t₂, hstep₂, hg₂, hparent₂, hsame₂⟩ := exists_step hg₁ hcode
  have hc₂ := Table.not_terminated hg₂ (hsame₂ c) hc₁
  have hended₂ : t₂.Ended shell d := ⟨hparent₂ ▸ hended₁.1, hsame₂ d hds ▸ hended₁.2⟩
  have hwait : code (.shell .waitpid { g with leave := 1 }) (.wait (some d)) =
      some (.wait d (.shell .done { g with leave := 1 })) := rfl
  obtain ⟨u, hstep₃, hu, hsame₃⟩ := exists_wait hg₂ hwait hended₂
  exact ⟨_, u, .tail (.tail hsteps trivial hstep₂) trivial hstep₃, hu,
    Table.not_terminated hu (fun hne => hsame₃ c hne hcd) hc₂⟩

/-- In every run in which the end of the loop of `main` is covered, `main` only returns when all
background processes have terminated; where it is not covered, `main` can return too early. -/
theorem exit_waits (shell : Int) :
    (∀ h t g, (mc2 shell).RunIf (fun t _ => Covered shell t) h t →
      t.status shell = .active (.shell .done g) → ∀ c ∈ g.added, t.Terminated c) ∧
    ∀ h t, (mc2 shell).Run h t → ¬ Covered shell t →
      ∃ l u g c, (mc2 shell).Steps (fun _ _ => True) t l u ∧
        u.status shell = .active (.shell .done g) ∧ c ∈ g.added ∧ ¬ u.Terminated c := by
  refine ⟨fun h t g hrun hg => (run_settles hrun).done g hg, fun h t hrun hbad => ?_⟩
  have howns := run_owns hrun
  unfold Covered at hbad
  push Not at hbad
  obtain ⟨⟨place, g⟩, hx, rfl, ⟨c, hc, hactive⟩, hmore⟩ := hbad
  have hg := status_of_shellOf hx
  by_cases hempty : emptybackground g.running = 0
  · have htwo := hmore hempty
    unfold OneLeft at htwo
    push Not at htwo
    obtain ⟨x, -, y, -, hx, hy, hxy⟩ := htwo
    obtain ⟨d, hd, hcd⟩ : ∃ d, t.Unreaped shell d ∧ c ≠ d := by
      by_cases hcx : c = x
      · exact ⟨y, hy, hcx ▸ hxy⟩
      · exact ⟨x, hx, hcx⟩
    have hds : d ≠ shell := fun heq => howns.rooted (heq ▸ hd.1)
    obtain ⟨l, u, hsteps, hu, hcu⟩ := leaves_after_wait hg hempty hd hds hactive hcd
    exact ⟨l, u, _, c, hsteps, hu, hc, hcu⟩
  · obtain ⟨l, u, hsteps, hu, hcu⟩ := leaves_at_once hg hempty hactive
    exact ⟨l, u, _, c, hsteps, hu, hc, hcu⟩

end Runs

/-- The command `ls / &` is added and started as process 2. -/
def oneBackground : List (Event Action) :=
  [.act 1 (.poll none),
    .act 1 (.input ⟨some 97, ['l', 's', ' ', '/', ' ', '&', '\n'], [], []⟩), .act 1 .loop,
    .act 1 (.poll none), .act 1 (choose 51), .act 1 (.fork 2), .act 1 .loop,
    .act 1 (.poll none)]

/-- It is started again as process 3. -/
def twoBackground : List (Event Action) :=
  oneBackground ++ [.act 1 (choose 51), .act 1 (.fork 3), .act 1 .loop, .act 1 (.poll none)]

theorem oneBackground_done : ∃ t g, (mc2 1).RunIf (fun t _ => Covered 1 t)
      (.act 1 (.wait (some 2)) :: .terminate 2 :: .act 1 .leave :: .act 1 (choose 101) ::
        oneBackground.reverse) t ∧
    t.status 1 = .active (.shell .done g) ∧ g.added = [2] :=
  exists_run (fun t _ => Covered 1 t) (by decide +kernel)

theorem twoBackground_left : ∃ t g,
    (mc2 1).Run (.act 1 (choose 101) :: twoBackground.reverse) t ∧
    t.status 1 = .active (.shell .leaving g) ∧ ¬ Covered 1 t :=
  exists_run (fun _ _ => True) (by decide +kernel)

theorem exit_waits_background : (∃ h t g, (mc2 1).RunIf (fun t _ => Covered 1 t) h t ∧
    t.status 1 = .active (.shell .done g) ∧ 2 ∈ g.added ∧ t.Terminated 2) ∧
    ∃ h t l u g c, (mc2 1).Run h t ∧ (mc2 1).Steps (fun _ _ => True) t l u ∧
      u.status 1 = .active (.shell .done g) ∧ c ∈ g.added ∧ ¬ u.Terminated c := by
  obtain ⟨t, g, hrun, hplace, hadded⟩ := oneBackground_done
  obtain ⟨t', g', hrun', -, hbad⟩ := twoBackground_left
  have hmem : 2 ∈ g.added := by
    rw [hadded]
    exact List.mem_cons_self
  obtain ⟨l, u, g'', c, hlate⟩ := (exit_waits 1).2 _ t' hrun' hbad
  exact ⟨⟨_, t, g, hrun, hplace, hmem, (exit_waits 1).1 _ t g hrun hplace 2 hmem⟩,
    _, t', l, u, g'', c, hrun', hlate⟩

/-- The shell is left with two background processes and waits for one of them. -/
theorem exit_waits_for_one : ∃ t g,
    (mc2 1).Run (.act 1 (.wait (some 2)) :: .terminate 2 :: .act 1 .leave :: .act 1 (choose 101) ::
      twoBackground.reverse) t ∧
    t.status 1 = .active (.shell .done g) ∧ (3 ∈ g.added ∧ ¬ t.Terminated 3) :=
  exists_run (fun _ _ => True) (by decide +kernel)

end Cs3013.Shell
