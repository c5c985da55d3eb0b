import Cs3013.Library.Transition
import Mathlib.Algebra.Order.Ring.Int
import Mathlib.Order.Lattice

/-!
# The time a run spends in a condition

The states of a run carry a clock. A stay is the time from a step that establishes a condition, or
from the beginning, to the step that ends it. An accumulator that is never given more than the
stay a step ends counts too little, and it is right exactly when no step is short.
-/
namespace Cs3013.Library.Sojourn

open Transition

section Stays

variable {σ ℓ : Type} (P : σ → Prop) [DecidablePred P] (clock : σ → Int)

/-- The moment at which the steps `h` have last established `P`; the run begins at `t₀`. -/
def since (t₀ : Int) : List (Recorded σ ℓ) → Int
  | [] => t₀
  | r :: h => if ¬ P r.before ∧ P r.after then clock r.after else since t₀ h

/-- The length of all stays in `P` that the steps have ended. -/
def spent (t₀ : Int) : List (Recorded σ ℓ) → Int
  | [] => 0
  | r :: h => spent t₀ h +
    if P r.before ∧ ¬ P r.after then clock r.after - since P clock t₀ h else 0

/-- What a step has to add to the accumulator when the stay began at `mark`. -/
def due (mark : σ → Int) (s u : σ) : Int := if P s ∧ ¬ P u then clock u - mark s else 0

variable {P} {clock} {mark : σ → Int} {s u : σ}

theorem due_ended (hs : P s) (hu : ¬ P u) : due P clock mark s u = clock u - mark s :=
  if_pos ⟨hs, hu⟩

theorem due_kept (h : P s → P u) : due P clock mark s u = 0 := if_neg fun hend => hend.2 (h hend.1)

end Stays

/-- `mark` follows the beginnings of `P`, and `total` is never given more than is due. The
invariant `I` is what the steps need for that. -/
structure Stopwatch {σ ℓ : Type} (T : System σ ℓ) (P : σ → Prop) [DecidablePred P]
    (clock mark total : σ → Int) (t₀ : Int) (I : σ → Prop) : Prop where
  inv_init : ∀ s, T.init s → I s
  inv_step : ∀ s l u, I s → T.step s l u → I u
  mark_init : ∀ s, T.init s → mark s = t₀
  mark_step : ∀ s l u, I s → T.step s l u → mark u = if ¬ P s ∧ P u then clock u else mark s
  total_init : ∀ s, T.init s → total s = 0
  total_step : ∀ s l u, I s → T.step s l u → total u - total s ≤ due P clock mark s u

/-- What holds of the accumulator after the steps `h`. -/
structure Watched {σ ℓ : Type} (P : σ → Prop) [DecidablePred P] (clock mark total : σ → Int)
    (t₀ : Int) (I : σ → Prop) (h : List (Recorded σ ℓ)) (s : σ) : Prop where
  inv : I s
  since_eq : mark s = since P clock t₀ h
  le : total s ≤ spent P clock t₀ h
  exact_iff : total s = spent P clock t₀ h ↔
    ∀ r ∈ h, total r.after - total r.before = due P clock mark r.before r.after

section Runs

variable {σ ℓ : Type} {T : System σ ℓ} {P : σ → Prop} [DecidablePred P]
  {clock mark total : σ → Int} {t₀ : Int} {I : σ → Prop} {ok : σ → Recorded σ ℓ → Prop}
  {h : List (Recorded σ ℓ)} {s : σ} {r : Recorded σ ℓ}

theorem spent_cons (hmark : mark r.before = since P clock t₀ h) : spent P clock t₀ (r :: h) =
    spent P clock t₀ h + due P clock mark r.before r.after := by
  rw [spent, due, hmark]

theorem Stopwatch.init (hw : Stopwatch T P clock mark total t₀ I) (hinit : T.init s) :
    Watched P clock mark total t₀ I ([] : List (Recorded σ ℓ)) s where
  inv := hw.inv_init s hinit
  since_eq := hw.mark_init s hinit
  le := (hw.total_init s hinit).le
  exact_iff := ⟨fun _ _ hr => absurd hr List.not_mem_nil, fun _ => hw.total_init s hinit⟩

theorem Stopwatch.step (hw : Stopwatch T P clock mark total t₀ I)
    (hs : Watched P clock mark total t₀ I h r.before) (hstep : T.step r.before r.label r.after) :
    Watched P clock mark total t₀ I (r :: h) r.after := by
  have hspent := spent_cons hs.since_eq
  have hadded := hw.total_step _ _ _ hs.inv hstep
  have hle := hs.le
  refine ⟨hw.inv_step _ _ _ hs.inv hstep, ?_, by omega, ?_⟩
  · rw [hw.mark_step _ _ _ hs.inv hstep, since, hs.since_eq]
  · rw [hspent, List.forall_mem_cons, ← hs.exact_iff]
    constructor
    · intro htotal
      omega
    · rintro ⟨hlast, hearlier⟩
      omega

/-- The accumulator is the time spent exactly when every step adds what is due. -/
theorem Stopwatch.total_eq_iff (hw : Stopwatch T P clock mark total t₀ I)
    (hrun : T.recorded.RunIf ok h s) : total s = spent P clock t₀ h ↔
      ∀ r ∈ h, total r.after - total r.before = due P clock mark r.before r.after := by
  have hwatched : Watched P clock mark total t₀ I h s := by
    apply hrun.invariant
    · intro s hinit
      exact hw.init hinit
    · intro h s r u hs _ hstep
      obtain ⟨rfl, rfl, hstep⟩ := hstep
      exact hw.step hs hstep
  exact hwatched.exact_iff

end Runs

end Cs3013.Library.Sojourn
