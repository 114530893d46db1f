import Catfs.Lib.Prog

/-! # How a run ends

A program may throw because one of its steps did, or on its own account. `Ends` says of one run that it returns a value
with a postcondition, or that it is a step with one of the labels `A` that throws: the run neither gives up nor throws
from anywhere else. -/

namespace Lib

open EStateM (Result)

namespace Prog

variable {ℓ ε σ α β : Type} {A : ℓ → Prop} {Q Q' : α → σ → Prop} {E : σ → Prop} {p : Prog ℓ ε σ α}
  {g : α → Prog ℓ ε σ β} {s s' : σ}

theorem thrown_bind : (p >>= g).thrown s = match p.run s with
    | .ok a s' => (g a).thrown s'
    | .error _ _ => p.thrown s := by
  show (p.bind g).thrown s = _
  induction p generalizing s with
  | ret a => rfl
  | fail e => rfl
  | act l f k ih =>
    cases hf : f s with
    | ok b s₁ => simp only [bind, thrown, run, hf, ih b]
    | error e s₁ => simp only [bind, thrown, run, hf]

/-- From `s`, `p` returns with `Q`, or a step with a label in `A` throws and the run ends with `E`. -/
def Ends (A : ℓ → Prop) (Q : α → σ → Prop) (E : σ → Prop) (p : Prog ℓ ε σ α) (s : σ) : Prop :=
  match p.run s with
  | .ok a s' => Q a s'
  | .error e s' => E s' ∧ ∃ l, A l ∧ p.thrown s = some (l, e)

theorem ends_of_ok {a : α} (h : p.run s = .ok a s') : p.Ends A Q E s ↔ Q a s' := by
  rw [Ends, h]

theorem ends_lift (l : ℓ) (f : EStateM ε σ α) : (lift l f).Ends A Q E s ↔ match f s with
    | .ok a s' => Q a s'
    | .error _ s' => E s' ∧ A l := by
  rw [Ends, run_lift]
  cases hf : f s with
  | ok a s' => exact Iff.rfl
  | error e s' =>
    have hthrown : (lift l f).thrown s = some (l, e) := by simp only [lift, thrown, hf]
    refine and_congr_right fun _ => ⟨fun h => ?_, fun h => ⟨l, h, hthrown⟩⟩
    obtain ⟨l', hl, heq⟩ := h
    rw [hthrown] at heq
    cases heq
    exact hl

/-- A sequence ends as its second part does, from where the first returned. -/
theorem ends_bind {T : β → σ → Prop} : (p >>= g).Ends A T E s ↔ p.Ends A (fun a s' => (g a).Ends A T E s') E s := by
  simp only [Ends, run_bind_apply, thrown_bind]
  cases p.run s <;> exact Iff.rfl

theorem ends_bind_ok {T : β → σ → Prop} {a : α} (h : p.run s = .ok a s') : (p >>= g).Ends A T E s ↔ (g a).Ends A T E s' := by
  rw [ends_bind, ends_of_ok h]

theorem Ends.mono {E' : σ → Prop} (h : p.Ends A Q E s) (hQ : ∀ a s', Q a s' → Q' a s') (hE : ∀ s', E s' → E' s') :
    p.Ends A Q' E' s := by
  unfold Ends at h ⊢
  cases hr : p.run s with
  | ok a s' =>
    rw [hr] at h
    exact hQ a s' h
  | error e s' =>
    rw [hr] at h
    exact ⟨hE s' h.1, h.2⟩

theorem ends_map {f : α → β} {T : β → σ → Prop} : (f <$> p).Ends A T E s ↔ p.Ends A (fun a => T (f a)) E s := ends_bind

/-- What holds however the run ends. -/
theorem Ends.endState {K : σ → Prop} (h : p.Ends A (fun _ => K) K s) : K (endState (p.run s)) := by
  unfold Ends at h
  cases hr : p.run s with
  | ok a s' =>
    rw [hr] at h
    exact h
  | error e s' =>
    rw [hr] at h
    exact h.1

end Prog

end Lib
