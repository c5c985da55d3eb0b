import Mathlib.Order.Defs.Unbundled
import Mathlib.Tactic.Common

/-!
# Programs that change a state and may end in a fault

A program either returns a value in a new state or stops with a fault in the state
it had reached. `wp` is the weakest precondition with one postcondition for each of
the two endings; its rules follow the shape of the program. The loop rules replace a monadic loop
whose body has a known effect by the fold of that effect. What a program leaves alone, and the
relation along which it moves the state, follow from its parts.
-/
namespace Cs3013.Library.Faulting

variable {ε σ α β γ : Type}

/-- A program with state `σ` that returns an `α` or stops with a fault `ε`. -/
abbrev Prog (ε σ α : Type) := EStateM ε σ α

/-- The state in which a program ends, by returning or by a fault. -/
def finalState (r : EStateM.Result ε σ α) : σ :=
  match r with
  | .ok _ s => s
  | .error _ s => s

/-- `Q` holds of the value and state of a return, `E` of the fault and state of a stop. -/
def wp (m : Prog ε σ α) (Q : α → σ → Prop) (E : ε → σ → Prop) (s : σ) : Prop :=
  match m.run s with
  | .ok a s' => Q a s'
  | .error e s' => E e s'

section Rules

variable {Q Q' : α → σ → Prop} {R : β → σ → Prop} {E E' : ε → σ → Prop} {s s' : σ}

@[simp] theorem wp_pure (a : α) : wp (pure a : Prog ε σ α) Q E s ↔ Q a s := Iff.rfl

@[simp] theorem wp_get {Q : σ → σ → Prop} : wp (get : Prog ε σ σ) Q E s ↔ Q s s := Iff.rfl

@[simp] theorem wp_modify {Q : PUnit → σ → Prop} (f : σ → σ) :
    wp (modify f : Prog ε σ PUnit) Q E s ↔ Q ⟨⟩ (f s) := Iff.rfl

@[simp] theorem wp_throw (e : ε) : wp (throw e : Prog ε σ α) Q E s ↔ E e s := Iff.rfl

@[simp] theorem wp_bind (m : Prog ε σ α) (f : α → Prog ε σ β) :
    wp (m >>= f) R E s ↔ wp m (fun a s' => wp (f a) R E s') E s := by
  simp only [wp, EStateM.run, bind, EStateM.bind]
  cases m s <;> rfl

@[simp] theorem wp_ite (c : Prop) [Decidable c] (m n : Prog ε σ α) :
    wp (if c then m else n) Q E s ↔ if c then wp m Q E s else wp n Q E s := by
  split <;> rfl

/-- The rule of consequence. -/
theorem wp_mono {m : Prog ε σ α} (h : wp m Q E s) (hQ : ∀ a s', Q a s' → Q' a s')
    (hE : ∀ e s', E e s' → E' e s') : wp m Q' E' s := by
  unfold wp at h ⊢
  cases hm : m.run s with
  | ok a s' => rw [hm] at h; exact hQ a s' h
  | error e s' => rw [hm] at h; exact hE e s' h

/-- Consequence for the returns alone. -/
theorem wp_imp {m : Prog ε σ α} (h : wp m Q E s) (hQ : ∀ a s', Q a s' → Q' a s') :
    wp m Q' E s := wp_mono h hQ fun _ _ he => he

/-- Consequence where nothing is asked of the faults. -/
theorem wp_forget {m : Prog ε σ α} (h : wp m Q E s) (hQ : ∀ a s', Q a s' → Q' a s') :
    wp m Q' (fun _ _ => True) s := wp_mono h hQ fun _ _ _ => trivial

theorem wp_of_ok {m : Prog ε σ α} {a : α} (h : m.run s = .ok a s') : wp m Q E s ↔ Q a s' := by
  simp only [wp, h]

/-- A program that cannot fault returns. -/
theorem ok_of_wp {m : Prog ε σ α} (h : wp m Q (fun _ _ => False) s) :
    ∃ a s', m.run s = .ok a s' ∧ Q a s' := by
  unfold wp at h
  cases hm : m.run s with
  | ok a s' => rw [hm] at h; exact ⟨a, s', rfl, h⟩
  | error e s' => rw [hm] at h; exact h.elim

theorem wp_ok {m : Prog ε σ α} {a : α} (h : wp m Q E s) (hm : m.run s = .ok a s') : Q a s' := by
  simpa only [wp, hm] using h

theorem wp_of_forall {m : Prog ε σ α} (h : ∀ a s', Q a s') : wp m Q (fun _ _ => True) s := by
  unfold wp
  cases m.run s with
  | ok a s' => exact h a s'
  | error e s' => trivial

/-- The rule of composition. -/
theorem wp_seq {m : Prog ε σ α} {f : α → Prog ε σ β} (hm : wp m Q E s)
    (hf : ∀ a s', Q a s' → wp (f a) R E s') : wp (m >>= f) R E s := by
  rw [wp_bind]
  exact wp_imp hm hf

/-- A first step whose effect is known. -/
theorem wp_step {m : Prog ε σ α} {f : α → Prog ε σ β} {a : α} (h : m.run s = .ok a s')
    (hf : wp (f a) R E s') : wp (m >>= f) R E s := by
  rw [wp_bind, wp_of_ok h]
  exact hf

/-- A specification only depends on how the program ends. -/
theorem wp_congr {m m' : Prog ε σ α} (h : m.run s = m'.run s') (h' : wp m' Q E s') :
    wp m Q E s := by
  unfold wp at h' ⊢
  rw [h]
  exact h'

theorem wp_finalState {m : Prog ε σ α} {P : σ → Prop}
    (h : wp m (fun _ => P) (fun _ => P) s) : P (finalState (m.run s)) := by
  unfold wp at h
  unfold finalState
  cases hm : m.run s <;> rw [hm] at h <;> exact h

theorem wp_and {m : Prog ε σ α} (h : wp m Q E s) (h' : wp m Q' E' s) :
    wp m (fun a t => Q a t ∧ Q' a t) (fun e t => E e t ∧ E' e t) s := by
  unfold wp at h h' ⊢
  cases hm : m.run s <;> rw [hm] at h h' <;> exact ⟨h, h'⟩

end Rules

instance decidableWp {Q : α → σ → Prop} {E : ε → σ → Prop} [∀ a s, Decidable (Q a s)]
    [∀ e s, Decidable (E e s)] (m : Prog ε σ α) (s : σ) : Decidable (wp m Q E s) :=
  match h : m.run s with
  | .ok a t => decidable_of_iff (Q a t) (by simp [wp, h])
  | .error e t => decidable_of_iff (E e t) (by simp [wp, h])

section Equations

variable {s s' : σ}

theorem bind_of_ok {m : Prog ε σ α} {f : α → Prog ε σ β} {a : α} (h : m.run s = .ok a s') :
    (m >>= f).run s = (f a).run s' := by
  simp only [EStateM.run, bind, EStateM.bind] at h ⊢
  rw [h]

/-- The first part may be exchanged where it ends in the same way. -/
theorem bind_congr_run {m m' : Prog ε σ α} {f : α → Prog ε σ β} (h : m.run s = m'.run s) :
    (m >>= f).run s = (m' >>= f).run s := by
  simp only [EStateM.run, bind, EStateM.bind] at h ⊢
  rw [h]

/-- Two continuations may be exchanged where they agree on every return of the first part. -/
theorem bind_congr_wp {m : Prog ε σ α} {f g : α → Prog ε σ β}
    (h : wp m (fun a t => (f a).run t = (g a).run t) (fun _ _ => True) s) :
    (m >>= f).run s = (m >>= g).run s := by
  unfold wp at h
  simp only [EStateM.run, bind, EStateM.bind] at h ⊢
  cases hm : m s with
  | ok a t => rw [hm] at h; exact h
  | error e t => rfl

/-- A continuation that only returns what it is given may be left out. -/
theorem bind_eq_self {m : Prog ε σ α} {f : α → Prog ε σ α}
    (h : wp m (fun a t => (f a).run t = .ok a t) (fun _ _ => True) s) :
    (m >>= f).run s = m.run s := by
  have hpure : (m >>= f).run s = (m >>= pure).run s := bind_congr_wp h
  rw [hpure, bind_pure]

theorem pure_run (a : α) : (pure a : Prog ε σ α).run s = .ok a s := rfl

theorem get_run : (get : Prog ε σ σ).run s = .ok s s := rfl

theorem modify_run (f : σ → σ) : (modify f : Prog ε σ PUnit).run s = .ok ⟨⟩ (f s) := rfl

theorem bind_run (m : Prog ε σ α) (f : α → Prog ε σ β) :
    (m >>= f).run s = match m.run s with
      | .ok a t => (f a).run t
      | .error e t => .error e t := by
  simp only [EStateM.run, bind, EStateM.bind]
  cases m s <;> rfl

end Equations

section Loops

/-- A loop whose body succeeds while `I` holds is the fold of its effect. -/
theorem forM_eq_foldl_of_invariant {f : γ → Prog ε σ PUnit} {g : σ → γ → σ} {I : σ → Prop}
    (l : List γ) (h : ∀ c ∈ l, ∀ s, I s → (f c).run s = .ok ⟨⟩ (g s c) ∧ I (g s c)) {s : σ}
    (hs : I s) : (forM l f : Prog ε σ PUnit).run s = .ok ⟨⟩ (l.foldl g s) := by
  induction l generalizing s with
  | nil => rfl
  | cons c l ih =>
    obtain ⟨hc, hI⟩ := h c (by simp) s hs
    rw [List.forM_cons, bind_of_ok hc, List.foldl_cons]
    exact ih (fun d hd => h d (by simp [hd])) hI

theorem forM_eq_foldl {f : γ → Prog ε σ PUnit} {g : σ → γ → σ} (l : List γ)
    (h : ∀ c ∈ l, ∀ s, (f c).run s = .ok ⟨⟩ (g s c)) (s : σ) :
    (forM l f : Prog ε σ PUnit).run s = .ok ⟨⟩ (l.foldl g s) :=
  forM_eq_foldl_of_invariant (I := fun _ => True) l (fun c hc s _ => ⟨h c hc s, trivial⟩) trivial

/-- A reading loop leaves the state alone and collects what each step reads. -/
theorem mapM_eq_map {f : γ → Prog ε σ α} {g : γ → α} (l : List γ) (s : σ)
    (h : ∀ c ∈ l, (f c).run s = .ok (g c) s) : (l.mapM f).run s = .ok (l.map g) s := by
  induction l with
  | nil => rfl
  | cons c l ih =>
    rw [List.mapM_cons, bind_of_ok (h c (by simp)),
      bind_of_ok (ih fun d hd => h d (by simp [hd]))]
    rfl

theorem foldlM_eq_foldl {f : α → γ → Prog ε σ α} {g : α → γ → α} (l : List γ) (s : σ) (a : α)
    (h : ∀ c ∈ l, ∀ a, (f a c).run s = .ok (g a c) s) :
    (l.foldlM f a).run s = .ok (l.foldl g a) s := by
  induction l generalizing a with
  | nil => rfl
  | cons c l ih =>
    rw [List.foldlM_cons, bind_of_ok (h c (by simp) a), List.foldl_cons]
    exact ih (g a c) fun d hd => h d (by simp [hd])

end Loops

section Views

variable {τ : Type} {F : ε → Prop} {view : σ → τ}

/-- However the program ends, the part of the state that `view` shows is as before, and a fault
is one of `F`. -/
def Preserves (F : ε → Prop) (view : σ → τ) (m : Prog ε σ α) : Prop :=
  ∀ s, wp m (fun _ t => view t = view s) (fun e t => F e ∧ view t = view s) s

theorem Preserves.wp {m : Prog ε σ α} (hm : Preserves F view m) {Q : α → σ → Prop}
    {E : ε → σ → Prop} {s : σ} (hQ : ∀ a t, view t = view s → Q a t)
    (hE : ∀ e t, F e → view t = view s → E e t) : Faulting.wp m Q E s :=
  wp_mono (hm s) hQ fun e t h => hE e t h.1 h.2

theorem Preserves.pure (a : α) : Preserves F view (pure a : Prog ε σ α) := fun _ => rfl

theorem Preserves.throw {e : ε} (h : F e) : Preserves F view (throw e : Prog ε σ α) :=
  fun _ => ⟨h, rfl⟩

theorem Preserves.get : Preserves F view (get : Prog ε σ σ) := fun _ => rfl

theorem Preserves.modify {f : σ → σ} (h : ∀ s, view (f s) = view s) :
    Preserves F view (modify f : Prog ε σ PUnit) := fun s => h s

theorem Preserves.bind {m : Prog ε σ α} {f : α → Prog ε σ β} (hm : Preserves F view m)
    (hf : ∀ a, Preserves F view (f a)) : Preserves F view (m >>= f) := by
  intro s
  rw [wp_bind]
  refine hm.wp (fun a t ht => ?_) fun _ _ he ht => ⟨he, ht⟩
  exact (hf a).wp (fun _ _ hu => hu.trans ht) fun _ _ he hu => ⟨he, hu.trans ht⟩

theorem Preserves.ite {c : Prop} [Decidable c] {m n : Prog ε σ α} (hm : Preserves F view m)
    (hn : Preserves F view n) : Preserves F view (if c then m else n) := by
  split
  · exact hm
  · exact hn

theorem Preserves.foldlM {f : α → γ → Prog ε σ α} (l : List γ)
    (h : ∀ c ∈ l, ∀ a, Preserves F view (f a c)) (a : α) : Preserves F view (l.foldlM f a) := by
  induction l generalizing a with
  | nil => exact .pure a
  | cons c l ih =>
    rw [List.foldlM_cons]
    exact (h c (by simp) a).bind fun b => ih (fun d hd => h d (by simp [hd])) b

theorem Preserves.forM {f : γ → Prog ε σ PUnit} (l : List γ) (h : ∀ c ∈ l, Preserves F view (f c)) :
    Preserves F view (forM l f : Prog ε σ PUnit) := by
  induction l with
  | nil => exact .pure _
  | cons c l ih =>
    rw [List.forM_cons]
    exact (h c (by simp)).bind fun _ => ih fun d hd => h d (by simp [hd])

theorem Preserves.mapM {f : γ → Prog ε σ α} (l : List γ) (h : ∀ c ∈ l, Preserves F view (f c)) :
    Preserves F view (l.mapM f) := by
  induction l with
  | nil => exact .pure _
  | cons c l ih =>
    rw [List.mapM_cons]
    refine (h c (by simp)).bind fun b => ?_
    exact (ih fun d hd => h d (by simp [hd])).bind fun _ => .pure _

/-- What shows less is preserved as well. -/
theorem Preserves.comp {υ : Type} {m : Prog ε σ α} (hm : Preserves F view m) (g : τ → υ) :
    Preserves F (fun s => g (view s)) m := fun _ =>
  hm.wp (fun _ _ ht => congrArg g ht) fun _ _ he ht => ⟨he, congrArg g ht⟩

theorem Preserves.weaken {G : ε → Prop} {m : Prog ε σ α} (hm : Preserves F view m)
    (h : ∀ e, F e → G e) : Preserves G view m := fun _ =>
  hm.wp (fun _ _ ht => ht) fun e _ he ht => ⟨h e he, ht⟩

end Views

section Evolution

variable {R : σ → σ → Prop}

/-- Every return of the program leads along `R`. -/
def Evolves (R : σ → σ → Prop) (m : Prog ε σ α) : Prop :=
  ∀ s, wp m (fun _ t => R s t) (fun _ _ => True) s

theorem Evolves.rel {m : Prog ε σ α} {a : α} {s t : σ} (hm : Evolves R m)
    (h : m.run s = .ok a t) : R s t := wp_ok (Q := fun _ t => R s t) (hm s) h

theorem Evolves.throw (e : ε) : Evolves R (throw e : Prog ε σ α) := fun _ => trivial

theorem Evolves.modify {f : σ → σ} (h : ∀ s, R s (f s)) :
    Evolves R (modify f : Prog ε σ PUnit) := fun s => h s

theorem Evolves.ite {c : Prop} [Decidable c] {m n : Prog ε σ α} (hm : Evolves R m)
    (hn : Evolves R n) : Evolves R (if c then m else n) := by
  split
  · exact hm
  · exact hn

theorem Evolves.of_preserves {τ : Type} {F : ε → Prop} {view : σ → τ} {m : Prog ε σ α}
    (hm : Preserves F view m) (h : ∀ s t, view t = view s → R s t) : Evolves R m :=
  fun s => hm.wp (fun _ t ht => h s t ht) fun _ _ _ _ => trivial

variable [IsPreorder σ R]

theorem Evolves.pure (a : α) : Evolves R (pure a : Prog ε σ α) := fun s => refl_of R s

theorem Evolves.get : Evolves R (get : Prog ε σ σ) := fun s => refl_of R s

theorem Evolves.bind {m : Prog ε σ α} {f : α → Prog ε σ β} (hm : Evolves R m)
    (hf : ∀ a, Evolves R (f a)) : Evolves R (m >>= f) := by
  intro s
  refine wp_seq (hm s) fun a t ht => ?_
  exact wp_imp (hf a t) fun _ _ hu => trans_of R ht hu

theorem Evolves.seq {m : Prog ε σ α} {n : Prog ε σ β} (hm : Evolves R m) (hn : Evolves R n) :
    Evolves R (m >>= fun _ => n) := hm.bind fun _ => hn

theorem Evolves.forM {f : γ → Prog ε σ PUnit} (l : List γ) (h : ∀ c ∈ l, Evolves R (f c)) :
    Evolves R (forM l f : Prog ε σ PUnit) := by
  induction l with
  | nil => exact .pure _
  | cons c l ih =>
    rw [List.forM_cons]
    exact (h c List.mem_cons_self).bind fun _ => ih fun d hd => h d (List.mem_cons_of_mem c hd)

end Evolution

end Cs3013.Library.Faulting
