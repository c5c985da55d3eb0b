import Mathlib.Tactic.Common

/-!
# Runs of a labelled transition system

A run is recorded newest label first. `Steps ok` only takes steps whose state and label
satisfy `ok`; with `ok` always true it is the plain run. An invariant is proved once,
from the initial states and one step, for every state a run reaches.
-/
namespace Cs3013.Library.Transition

variable {σ ℓ : Type}

structure System (σ ℓ : Type) where
  init : σ → Prop
  step : σ → ℓ → σ → Prop

namespace System

variable (T : System σ ℓ)

/-- The steps from a given state, each one allowed by `ok` in the state it leaves. -/
inductive Steps (ok : σ → ℓ → Prop) (s : σ) : List ℓ → σ → Prop
  | refl : Steps ok s [] s
  | tail {h : List ℓ} {t u : σ} {l : ℓ} :
      Steps ok s h t → ok t l → T.step t l u → Steps ok s (l :: h) u

/-- A run starts in an initial state. -/
def RunIf (ok : σ → ℓ → Prop) (h : List ℓ) (s : σ) : Prop :=
  ∃ s₀, T.init s₀ ∧ T.Steps ok s₀ h s

def Run (h : List ℓ) (s : σ) : Prop := T.RunIf (fun _ _ => True) h s

variable {T} {ok ok' : σ → ℓ → Prop} {h : List ℓ} {s t : σ}

/-- The invariant rule, for a property of the state and of the labels so far. -/
theorem Steps.invariant {I : List ℓ → σ → Prop} (hrun : T.Steps ok s h t) (hs : I [] s)
    (hstep : ∀ h t l u, I h t → ok t l → T.step t l u → I (l :: h) u) : I h t := by
  induction hrun with
  | refl => exact hs
  | tail _ hok hu ih => exact hstep _ _ _ _ ih hok hu

theorem RunIf.invariant {I : List ℓ → σ → Prop} (hrun : T.RunIf ok h s)
    (hinit : ∀ s, T.init s → I [] s)
    (hstep : ∀ h t l u, I h t → ok t l → T.step t l u → I (l :: h) u) : I h s := by
  obtain ⟨s₀, h₀, hsteps⟩ := hrun
  exact hsteps.invariant (hinit s₀ h₀) hstep

/-- An invariant of the state alone. -/
theorem RunIf.stateInvariant {I : σ → Prop} (hrun : T.RunIf ok h s)
    (hinit : ∀ s, T.init s → I s)
    (hstep : ∀ t l u, I t → ok t l → T.step t l u → I u) : I s :=
  hrun.invariant (I := fun _ => I) hinit fun _ t l u => hstep t l u

theorem Steps.head {l : ℓ} {u : σ} (hok : ok s l) (hu : T.step s l u) (hrun : T.Steps ok u h t) :
    T.Steps ok s (h ++ [l]) t := by
  induction hrun with
  | refl => exact .tail .refl hok hu
  | tail _ hl hv ih => exact .tail ih hl hv

theorem Steps.mono (hrun : T.Steps ok s h t) (hok : ∀ s l, ok s l → ok' s l) :
    T.Steps ok' s h t := by
  induction hrun with
  | refl => exact .refl
  | tail _ hl hu ih => exact .tail ih (hok _ _ hl) hu

theorem RunIf.mono (hrun : T.RunIf ok h s) (hok : ∀ s l, ok s l → ok' s l) :
    T.RunIf ok' h s := by
  obtain ⟨s₀, h₀, hsteps⟩ := hrun
  exact ⟨s₀, h₀, hsteps.mono hok⟩

theorem RunIf.run (hrun : T.RunIf ok h s) : T.Run h s := hrun.mono fun _ _ _ => trivial

theorem RunIf.tail {l : ℓ} {u : σ} (hrun : T.RunIf ok h s) (hok : ok s l) (hu : T.step s l u) :
    T.RunIf ok (l :: h) u := by
  obtain ⟨s₀, h₀, hsteps⟩ := hrun
  exact ⟨s₀, h₀, hsteps.tail hok hu⟩

theorem Steps.append {h' : List ℓ} {u : σ} (hrun : T.Steps ok s h t) (hmore : T.Steps ok t h' u) :
    T.Steps ok s (h' ++ h) u := by
  induction hmore with
  | refl => exact hrun
  | tail _ hok hstep ih => exact .tail ih hok hstep

/-- A quantity that every step moves by a bounded amount: it falls by `a` at least, up to `b`. -/
theorem Steps.drift {I : σ → Prop} {φ : σ → Nat} {a b : Nat} (hrun : T.Steps ok s h t) (hs : I s)
    (hkeep : ∀ t l u, I t → ok t l → T.step t l u → I u)
    (hstep : ∀ t l u, I t → ok t l → T.step t l u → φ u + a ≤ φ t + b) :
    φ t + a * h.length ≤ φ s + b * h.length := by
  suffices hall : I t ∧ φ t + a * h.length ≤ φ s + b * h.length from hall.2
  apply hrun.invariant (I := fun h t => I t ∧ φ t + a * h.length ≤ φ s + b * h.length)
  · exact ⟨hs, Nat.le_refl _⟩
  · intro h t l u ht hok hu
    refine ⟨hkeep t l u ht.1 hok hu, ?_⟩
    have hmoved := hstep t l u ht.1 hok hu
    have hrest := ht.2
    rw [List.length_cons, Nat.mul_succ, Nat.mul_succ]
    omega

/-- Steps that use up a measure come to a state where none of them can be taken. -/
theorem exists_stuck (ok : σ → ℓ → Prop) {I : σ → Prop} (φ : σ → Nat) (hs : I s)
    (hkeep : ∀ t l u, I t → ok t l → T.step t l u → I u)
    (hstep : ∀ t l u, I t → ok t l → T.step t l u → φ u < φ t) :
    ∃ h t, T.Steps ok s h t ∧ I t ∧ ∀ l u, ok t l → ¬ T.step t l u := by
  induction hk : φ s using Nat.strongRecOn generalizing s with
  | ind k ih =>
    by_cases hmore : ∃ l u, ok s l ∧ T.step s l u
    · obtain ⟨l, u, hok, hu⟩ := hmore
      have hless := hstep s l u hs hok hu
      obtain ⟨h, t, hsteps, ht, hstuck⟩ := ih (φ u) (hk ▸ hless) (hkeep s l u hs hok hu) rfl
      exact ⟨h ++ [l], t, .head hok hu hsteps, ht, hstuck⟩
    · exact ⟨[], s, .refl, hs, fun l u hok hu => hmore ⟨l, u, hok, hu⟩⟩

/-- The labels in their order, each one allowed in the state it leaves. -/
def playIf (next : σ → ℓ → Option σ) (ok : σ → ℓ → Prop) [∀ s l, Decidable (ok s l)] (s : σ) :
    List ℓ → Option σ
  | [] => some s
  | l :: ls => if ok s l then (next s l).bind fun u => playIf next ok u ls else none

/-- What can be played is a run. -/
theorem steps_of_playIf {next : σ → ℓ → Option σ} [∀ s l, Decidable (ok s l)]
    (hnext : ∀ s l u, next s l = some u → T.step s l u) :
    ∀ {ls : List ℓ} {s : σ}, playIf next ok s ls = some t → T.Steps ok s ls.reverse t := by
  intro ls
  induction ls with
  | nil =>
    intro s hplay
    obtain rfl := Option.some_inj.mp hplay
    exact .refl
  | cons l ls ih =>
    intro s hplay
    obtain ⟨hok, hbind⟩ := Option.ite_none_right_eq_some.mp hplay
    obtain ⟨u, hu, hrest⟩ := Option.bind_eq_some_iff.mp hbind
    rw [List.reverse_cons]
    exact .head hok (hnext s l u hu) (ih hrest)

end System

/-! ## Recorded steps -/

/-- A step with the states before and after it. -/
structure Recorded (σ ℓ : Type) where
  before : σ
  label : ℓ
  after : σ

namespace System

variable (T : System σ ℓ)

/-- The same steps; the history of a run now tells what each of them did. -/
def recorded : System σ (Recorded σ ℓ) where
  init := T.init
  step s r u := r.before = s ∧ r.after = u ∧ T.step s r.label u

variable {T} {ok : σ → ℓ → Prop} {h : List (Recorded σ ℓ)} {s t : σ}

theorem Steps.forget (hrun : T.recorded.Steps (fun s r => ok s r.label) s h t) :
    T.Steps ok s (h.map Recorded.label) t := by
  induction hrun with
  | refl => exact .refl
  | tail _ hok hstep ih => exact .tail ih hok hstep.2.2

theorem RunIf.forget (hrun : T.recorded.RunIf (fun s r => ok s r.label) h s) :
    T.RunIf ok (h.map Recorded.label) s := by
  obtain ⟨s₀, h₀, hsteps⟩ := hrun
  exact ⟨s₀, h₀, hsteps.forget⟩

/-- Every run can be recorded. -/
theorem Steps.exists_recorded {g : List ℓ} (hrun : T.Steps ok s g t) :
    ∃ h, h.map Recorded.label = g ∧ T.recorded.Steps (fun s r => ok s r.label) s h t := by
  induction hrun with
  | refl => exact ⟨[], rfl, .refl⟩
  | @tail g u v l _ hok hstep ih =>
    obtain ⟨h, hmap, hsteps⟩ := ih
    refine ⟨⟨u, l, v⟩ :: h, ?_, .tail hsteps hok ⟨rfl, rfl, hstep⟩⟩
    rw [List.map_cons, hmap]

theorem RunIf.exists_recorded {g : List ℓ} (hrun : T.RunIf ok g s) :
    ∃ h, h.map Recorded.label = g ∧ T.recorded.RunIf (fun s r => ok s r.label) h s := by
  obtain ⟨s₀, h₀, hsteps⟩ := hrun
  obtain ⟨h, hmap, hrecorded⟩ := hsteps.exists_recorded
  exact ⟨h, hmap, s₀, h₀, hrecorded⟩

/-- The steps of a record are taken in states where the invariant holds. -/
theorem RunIf.mem_step {ok : σ → Recorded σ ℓ → Prop} {I : σ → Prop}
    (hrun : T.recorded.RunIf ok h s) (hinit : ∀ s, T.init s → I s)
    (hstep : ∀ t l u, I t → T.step t l u → I u) :
    ∀ r ∈ h, I r.before ∧ T.step r.before r.label r.after := by
  suffices hall : I s ∧ ∀ r ∈ h, I r.before ∧ T.step r.before r.label r.after from hall.2
  apply hrun.invariant
    (I := fun h s => I s ∧ ∀ r ∈ h, I r.before ∧ T.step r.before r.label r.after)
  · intro s hs
    exact ⟨hinit s hs, fun _ hr => absurd hr List.not_mem_nil⟩
  · intro h s r u hs _ hu
    obtain ⟨rfl, rfl, hu⟩ := hu
    exact ⟨hstep _ _ _ hs.1 hu, List.forall_mem_cons.mpr ⟨⟨hs.1, hu⟩, hs.2⟩⟩

/-- The recorded steps that the labels take, newest first, and the last state. -/
def trace (next : σ → ℓ → Option σ) (s : σ) (h : List (Recorded σ ℓ)) :
    List ℓ → Option (List (Recorded σ ℓ) × σ)
  | [] => some (h, s)
  | l :: ls => (next s l).bind fun u => trace next u (⟨s, l, u⟩ :: h) ls

/-- What can be traced is a recorded run. -/
theorem run_of_trace {next : σ → ℓ → Option σ}
    (hnext : ∀ s l u, next s l = some u → T.step s l u) :
    ∀ {ls : List ℓ} {s t : σ} {h g : List (Recorded σ ℓ)}, T.recorded.Run h s →
      trace next s h ls = some (g, t) → T.recorded.Run g t := by
  intro ls
  induction ls with
  | nil =>
    intro s t h g hrun htrace
    obtain ⟨rfl, rfl⟩ := Prod.mk.inj (Option.some_inj.mp htrace)
    exact hrun
  | cons l ls ih =>
    intro s t h g hrun htrace
    obtain ⟨u, hu, hrest⟩ := Option.bind_eq_some_iff.mp htrace
    have hnow : T.recorded.Run (⟨s, l, u⟩ :: h) u :=
      hrun.tail trivial ⟨rfl, rfl, hnext s l u hu⟩
    exact ih hnow hrest

end System

end Cs3013.Library.Transition
