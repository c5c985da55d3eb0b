import Cs3013.Library.Faulting

/-!
# What a program spends

`Spends φ E k m` bounds by `k` how much a program raises the measure `φ` of the state, however it
ends, and says of its faults that `E` holds. The budgets of the parts add up.
-/
namespace Cs3013.Library.Faulting

variable {ε σ α β γ : Type}

/-- From every state the program raises `φ` by `k` at most, and stops only where `E` holds. -/
def Spends (φ : σ → Nat) (E : ε → σ → Prop) (k : Nat) (m : Prog ε σ α) : Prop :=
  ∀ s, wp m (fun _ t => φ t ≤ φ s + k) (fun e t => φ t ≤ φ s + k ∧ E e t) s

section Rules

variable {φ : σ → Nat} {E : ε → σ → Prop} {j k : Nat} {m n : Prog ε σ α} {f : α → Prog ε σ β}

theorem Spends.mono (hm : Spends φ E j m) (hjk : j ≤ k) : Spends φ E k m := fun s =>
  have hle := Nat.add_le_add_left hjk (φ s)
  wp_mono (hm s) (fun _ _ ht => Nat.le_trans ht hle) fun _ _ ht => ⟨Nat.le_trans ht.1 hle, ht.2⟩

theorem Spends.of_zero (hm : Spends φ E 0 m) : Spends φ E k m := hm.mono (Nat.zero_le k)

theorem Spends.pure (a : α) : Spends φ E 0 (pure a : Prog ε σ α) := fun _ => Nat.le_refl _

theorem Spends.get : Spends φ E 0 (get : Prog ε σ σ) := fun _ => Nat.le_refl _

theorem Spends.throw {e : ε} (he : ∀ s, E e s) : Spends φ E 0 (throw e : Prog ε σ α) :=
  fun s => ⟨Nat.le_refl _, he s⟩

theorem Spends.modify {f : σ → σ} (h : ∀ s, φ (f s) = φ s) :
    Spends φ E 0 (modify f : Prog ε σ PUnit) := fun s => Nat.le_of_eq (h s)

/-- The first part against a specification of the whole. -/
theorem Spends.wp_bind {Q : β → σ → Prop} {E' : ε → σ → Prop} {s : σ} (hm : Spends φ E j m)
    (hf : ∀ a t, φ t ≤ φ s + j → wp (f a) Q E' t)
    (hE : ∀ e t, φ t ≤ φ s + j → E e t → E' e t) : wp (m >>= f) Q E' s := by
  rw [Faulting.wp_bind]
  exact wp_mono (hm s) hf fun e t h => hE e t h.1 h.2

theorem Spends.bind (hm : Spends φ E j m) (hf : ∀ a, Spends φ E k (f a)) :
    Spends φ E (j + k) (m >>= f) := by
  intro s
  apply hm.wp_bind
  · intro a t ht
    refine wp_mono (hf a t) (fun _ u hu => ?_) fun _ u hu => ⟨?_, hu.2⟩
    · omega
    · have hmore := hu.1
      omega
  · intro e t ht he
    exact ⟨by omega, he⟩

/-- A first part that spends nothing, and a last one. -/
theorem Spends.free (hm : Spends φ E 0 m) (hf : ∀ a, Spends φ E k (f a)) :
    Spends φ E k (m >>= f) := (hm.bind hf).mono (Nat.le_of_eq (Nat.zero_add k))

theorem Spends.last (hm : Spends φ E k m) (hf : ∀ a, Spends φ E 0 (f a)) :
    Spends φ E k (m >>= f) := hm.bind hf

theorem Spends.ite {c : Prop} [Decidable c] (hm : Spends φ E k m) (hn : Spends φ E k n) :
    Spends φ E k (if c then m else n) := by
  split
  · exact hm
  · exact hn

theorem Spends.forM {f : γ → Prog ε σ PUnit} (l : List γ) (h : ∀ c ∈ l, Spends φ E 0 (f c)) :
    Spends φ E 0 (forM l f : Prog ε σ PUnit) := by
  induction l with
  | nil => exact .pure _
  | cons c l ih =>
    rw [List.forM_cons]
    exact (h c List.mem_cons_self).free fun _ => ih fun d hd => h d (List.mem_cons_of_mem c hd)

theorem Spends.mapM {f : γ → Prog ε σ α} (l : List γ) (h : ∀ c ∈ l, Spends φ E 0 (f c)) :
    Spends φ E 0 (l.mapM f) := by
  induction l with
  | nil => exact .pure _
  | cons c l ih =>
    rw [List.mapM_cons]
    refine (h c List.mem_cons_self).free fun _ => ?_
    exact (ih fun d hd => h d (List.mem_cons_of_mem c hd)).free fun _ => .pure _

theorem Spends.foldlM {f : α → γ → Prog ε σ α} (l : List γ)
    (h : ∀ c ∈ l, ∀ a, Spends φ E 0 (f a c)) (a : α) : Spends φ E 0 (l.foldlM f a) := by
  induction l generalizing a with
  | nil => exact .pure a
  | cons c l ih =>
    rw [List.foldlM_cons]
    exact (h c List.mem_cons_self a).free fun b =>
      ih (fun d hd => h d (List.mem_cons_of_mem c hd)) b

end Rules

end Cs3013.Library.Faulting
