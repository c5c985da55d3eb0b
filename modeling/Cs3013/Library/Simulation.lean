import Cs3013.Library.Transition

/-!
# Simulation

A system simulates another one, its specification, when each of its steps is a step of the
specification or changes nothing there. `view` tells which: it gives the label that a label stands
for, or none. What holds of one step then holds of every run.
-/
namespace Cs3013.Library.Simulation

open Transition

variable {σ τ ℓ κ : Type}

/-- Related states stay related, step by step. -/
structure Simulates (T : System σ ℓ) (A : System τ κ) (ok : σ → ℓ → Prop) (view : ℓ → Option κ)
    (R : σ → τ → Prop) : Prop where
  init : ∀ s, T.init s → ∃ a, A.init a ∧ R s a
  shown : ∀ s a l k u, R s a → ok s l → T.step s l u → view l = some k →
    ∃ b, A.step a k b ∧ R u b
  hidden : ∀ s a l u, R s a → ok s l → T.step s l u → view l = none → R u a

section Rules

variable {T : System σ ℓ} {A : System τ κ} {ok : σ → ℓ → Prop} {view : ℓ → Option κ}
  {R : σ → τ → Prop} {h : List ℓ} {s : σ}

/-- Every run shows a run of the specification. -/
theorem Simulates.run (hsim : Simulates T A ok view R) (hrun : T.RunIf ok h s) :
    ∃ a, A.Run (h.filterMap view) a ∧ R s a := by
  apply hrun.invariant (I := fun h s => ∃ a, A.Run (h.filterMap view) a ∧ R s a)
  · intro s hs
    obtain ⟨a, ha, hR⟩ := hsim.init s hs
    exact ⟨a, ⟨a, ha, .refl⟩, hR⟩
  · intro h t l u hinv hok hstep
    obtain ⟨a, ha, hR⟩ := hinv
    cases hview : view l with
    | none =>
      rw [List.filterMap_cons_none hview]
      exact ⟨a, ha, hsim.hidden t a l u hR hok hstep hview⟩
    | some k =>
      obtain ⟨b, hb, hR'⟩ := hsim.shown t a l k u hR hok hstep hview
      rw [List.filterMap_cons_some hview]
      exact ⟨b, ha.tail trivial hb, hR'⟩

end Rules

end Cs3013.Library.Simulation
