import Catfs.Lib.Moves

/-! # What every step of a run does

`Along` says of one run, started in one state, that each of its steps moves as its label allows. A sequence takes the
steps of its first part and then those of the second, from where the first returned. -/

namespace Lib

open EStateM (Result)

namespace Prog
variable {ℓ ε σ α β : Type} {R R' : ℓ → σ → σ → Prop} {p : Prog ℓ ε σ α} {g : α → Prog ℓ ε σ β} {s s' : σ}

theorem mem_transitions_bind {e : ℓ × σ × σ} : e ∈ (p >>= g).transitions s ↔ e ∈ p.transitions s ∨ match p.run s with
    | .ok a s' => e ∈ (g a).transitions s'
    | .error _ _ => False := by
  show e ∈ (p.bind g).transitions s ↔ _
  induction p generalizing s with
  | ret b => simp [bind, transitions, run]
  | fail e => simp [bind, transitions, run]
  | act l f k ih =>
    cases hf : f s with
    | ok b s₁ => simp only [bind, transitions, run, hf, List.mem_cons, ih b, or_assoc]
    | error e s₁ => simp [bind, transitions, run, hf]

/-- From `s`, each step of the run moves as `R` allows its label. -/
def Along (R : ℓ → σ → σ → Prop) (p : Prog ℓ ε σ α) (s : σ) : Prop := ∀ e ∈ p.transitions s, R e.1 e.2.1 e.2.2

theorem along_pure (a : α) : (pure a : Prog ℓ ε σ α).Along R s := fun _ he => absurd he List.not_mem_nil

theorem along_fail (e : ε) : (fail e : Prog ℓ ε σ α).Along R s := fun _ he => absurd he List.not_mem_nil

theorem along_lift {l : ℓ} {f : EStateM ε σ α} : (lift l f).Along R s ↔ R l s (endState (f s)) := by
  have hsteps : (lift l f).transitions s = [(l, s, endState (f s))] := by
    simp only [lift, transitions]
    cases f s <;> rfl
  rw [Along, hsteps]
  exact ⟨fun h => h _ (List.mem_singleton_self _), fun h e he => by rw [List.mem_singleton.mp he]; exact h⟩

theorem along_bind : (p >>= g).Along R s ↔ p.Along R s ∧ match p.run s with
    | .ok a s' => (g a).Along R s'
    | .error _ _ => True := by
  simp only [Along, mem_transitions_bind]
  cases p.run s with
  | ok a s' => exact ⟨fun h => ⟨fun e he => h e (.inl he), fun e he => h e (.inr he)⟩, fun h e he => he.elim (h.1 e) (h.2 e)⟩
  | error e s' => exact ⟨fun h => ⟨fun e he => h e (.inl he), trivial⟩, fun h e he => he.elim (h.1 e) False.elim⟩

theorem along_bind_ok {a : α} (h : p.run s = .ok a s') : (p >>= g).Along R s ↔ p.Along R s ∧ (g a).Along R s' := by
  rw [along_bind, h]

theorem along_bind_error {e : ε} (h : p.run s = .error e s') : (p >>= g).Along R s ↔ p.Along R s := by
  rw [along_bind, h]
  exact and_iff_left trivial

/-- A program whose steps move so in every state. -/
theorem Does.along (h : p.Does R) : p.Along R s := by
  induction p generalizing s with
  | ret a => exact along_pure a
  | fail e => exact along_fail e
  | act l f k ih =>
    intro e he
    rw [transitions] at he
    rcases List.mem_cons.mp he with rfl | he
    · exact h.1 s
    · cases hf : f s with
      | ok b s₁ =>
        rw [hf] at he
        exact ih b (h.2 b) e he
      | error e' s₁ =>
        rw [hf] at he
        cases he

end Prog

end Lib
