import Catfs.Lib.Prog

/-! # Programs that run alone under a condition on their steps

A condition on a step speaks of its label and the state it is taken in. `Triple` judges the runs of a program whose
steps all meet the condition: what holds of a value it returns, and what holds when it throws. -/

namespace Lib

open EStateM (Result)

namespace Prog
variable {ℓ ε σ α β : Type}

/-- Each step of the run meets `guard` in the state it is taken in. -/
def Guarded (guard : ℓ → σ → Prop) : Prog ℓ ε σ α → σ → Prop
  | ret _, _ => True
  | fail _, _ => True
  | act l f k, s => guard l s ∧ match f s with
      | .ok b s' => (k b).Guarded guard s'
      | .error _ _ => True

variable {guard : ℓ → σ → Prop} {E P P' : σ → Prop} {Q Q' : α → σ → Prop} {p : Prog ℓ ε σ α}

theorem guarded_act {l : ℓ} {f : EStateM ε σ β} {k : β → Prog ℓ ε σ α} {s : σ} : (act l f k).Guarded guard s ↔ guard l s ∧
    match f s with
    | .ok b s' => (k b).Guarded guard s'
    | .error _ _ => True := by
  rw [Guarded]

theorem guarded_trivial {s : σ} : p.Guarded (fun _ _ => True) s := by
  induction p generalizing s with
  | ret a => trivial
  | fail e => trivial
  | act l f k ih =>
    refine guarded_act.mpr ⟨trivial, ?_⟩
    cases f s with
    | ok b s' => exact ih b
    | error e s' => trivial

/-- `ok` returns true of each step of the run. -/
def checks (ok : ℓ → σ → Bool) : Prog ℓ ε σ α → σ → Bool
  | ret _, _ => true
  | fail _, _ => true
  | act l f k, s => ok l s && match f s with
      | .ok b s' => (k b).checks ok s'
      | .error _ _ => true

/-- A check that is enough for the condition in states with `I`, which every step keeps. -/
theorem guarded_of_checks {A : ℓ → Prop} {I : σ → Prop} {R : σ → σ → Prop} {ok : ℓ → σ → Bool} {s : σ}
    (hp : p.Preserves A I R) (hok : ∀ l s, I s → ok l s = true → guard l s) (hI : I s) (h : p.checks ok s = true) :
    p.Guarded guard s := by
  induction p generalizing s with
  | ret a => trivial
  | fail e => trivial
  | act l f k ih =>
    rw [checks, Bool.and_eq_true] at h
    obtain ⟨h, hrest⟩ := h
    refine guarded_act.mpr ⟨hok l s hI h, ?_⟩
    have hf := hp.2.1 s hI trivial
    cases hfs : f s with
    | ok b s' =>
      rw [hfs] at hf hrest
      exact ih b (hp.2.2 b) hf.1 hrest
    | error e s' => trivial

theorem guarded_bind {g : α → Prog ℓ ε σ β} {s : σ} : (p >>= g).Guarded guard s ↔ p.Guarded guard s ∧
    match p.run s with
    | .ok a s' => (g a).Guarded guard s'
    | .error _ _ => True := by
  show (p.bind g).Guarded guard s ↔ _
  induction p generalizing s with
  | ret a => simp [bind, Guarded, run]
  | fail e => simp [bind, Guarded, run]
  | act l f k ih =>
    cases hf : f s with
    | ok b s' => simp only [bind, Guarded, run, hf, ih b, and_assoc]
    | error e s' => simp [bind, Guarded, run, hf]

/-- From a state with `P`, a run whose steps meet `guard` returns only values with `Q`, or throws in a state with
    `E`. -/
def Triple (guard : ℓ → σ → Prop) (E P : σ → Prop) (p : Prog ℓ ε σ α) (Q : α → σ → Prop) : Prop :=
  ∀ s, P s → p.Guarded guard s → match p.run s with
    | .ok a s' => Q a s'
    | .error _ s' => E s'

theorem triple_pure {a : α} (h : ∀ s, P s → Q a s) : Triple guard E P (pure a : Prog ℓ ε σ α) Q := fun s hs _ => h s hs

theorem triple_fail {e : ε} (h : ∀ s, P s → E s) : Triple guard E P (fail e : Prog ℓ ε σ α) Q := fun s hs _ => h s hs

theorem triple_lift {l : ℓ} {f : EStateM ε σ α} (h : ∀ s, P s → guard l s → match f s with
    | .ok a s' => Q a s'
    | .error _ s' => E s') : Triple guard E P (lift l f) Q := by
  intro s hs hg
  rw [run_lift]
  exact h s hs (guarded_act.mp hg).1

theorem Triple.pre (h : Triple guard E P' p Q) (hP : ∀ s, P s → P' s) : Triple guard E P p Q :=
  fun s hs hg => h s (hP s hs) hg

theorem Triple.post (h : Triple guard E P p Q) (hQ : ∀ a s, Q a s → Q' a s) : Triple guard E P p Q' := by
  intro s hs hg
  have := h s hs hg
  cases hr : p.run s <;> rw [hr] at this
  · exact hQ _ _ this
  · exact this

theorem Triple.bind {g : α → Prog ℓ ε σ β} {M : α → σ → Prop} {Q : β → σ → Prop} (hp : Triple guard E P p M)
    (hg : ∀ a, Triple guard E (M a) (g a) Q) : Triple guard E P (p >>= g) Q := by
  intro s hs hguard
  obtain ⟨hguard₁, hguard₂⟩ := guarded_bind.mp hguard
  have h₁ := hp s hs hguard₁
  cases hr : p.run s with
  | ok a s' =>
    rw [hr] at h₁ hguard₂
    rw [run_bind_ok hr]
    exact hg a s' h₁ hguard₂
  | error e s' =>
    rw [hr] at h₁
    rw [run_bind_error hr]
    exact h₁

theorem Triple.map {f : α → β} {Q : β → σ → Prop} (hp : Triple guard E P p fun a => Q (f a)) :
    Triple guard E P (f <$> p) Q := hp.bind fun _ => triple_pure fun _ hs => hs

/-- The value is dropped. -/
theorem Triple.drop {b : β} {R : σ → Prop} (hp : Triple guard E P p fun _ => R) :
    Triple guard E P ((fun _ => b) <$> p) fun _ => R := Triple.map (f := fun _ => b) hp

/-- A fact that does not depend on the state. -/
theorem Triple.of_fact {φ : Prop} (h : φ → Triple guard E P p Q) : Triple guard E (fun s => φ ∧ P s) p Q :=
  fun s hs hg => h hs.1 s hs.2 hg

theorem triple_exists {γ : Type} {P : γ → σ → Prop} (h : ∀ c, Triple guard E (P c) p Q) :
    Triple guard E (fun s => ∃ c, P c s) p Q := by
  rintro s ⟨c, hs⟩ hg
  exact h c s hs hg

theorem Triple.returns {R : α → Prop} (h : Triple guard E P p Q) (hR : p.Returns R) :
    Triple guard E P p fun a s => R a ∧ Q a s := by
  intro s hs hg
  have := h s hs hg
  cases hr : p.run s with
  | ok a s' =>
    rw [hr] at this
    exact ⟨hR.run hr, this⟩
  | error e s' =>
    rw [hr] at this
    exact this

/-- A program whose steps keep `I` and move along `R`, which `P` cannot tell apart. -/
theorem triple_of_preserves {A : ℓ → Prop} {I : σ → Prop} {R : σ → σ → Prop} [Std.Refl R] [IsTrans σ R]
    (hp : p.Preserves A I R) (hI : ∀ s, P s → I s) (hstable : ∀ s s', P s → I s' → R s s' → P s')
    (hE : ∀ s, P s → E s) : Triple guard E P p fun _ => P := by
  intro s hs _
  obtain ⟨hI', hR⟩ := hp.run (hI s hs)
  cases hr : p.run s <;> rw [hr] at hI' hR
  · exact hstable _ _ hs hI' hR
  · exact hE _ (hstable _ _ hs hI' hR)

end Prog

end Lib
