import Catfs.Lib.Prog

/-! # What a computation returns and what it throws

`Behaves` is a Hoare judgement with a condition for each way to end. It says which values are thrown, which `Keeps`
leaves open. -/

namespace Lib

open EStateM (Result)

variable {ε σ τ α β : Type}

/-- From a state with `P`, `m` returns only with `Q` and throws only with `E`. -/
def Behaves (P : σ → Prop) (m : EStateM ε σ α) (Q : α → σ → Prop) (E : ε → σ → Prop) : Prop :=
  ∀ s, P s → match m s with
    | .ok a s' => Q a s'
    | .error e s' => E e s'

namespace Behaves
variable {P P' : σ → Prop} {Q Q' : α → σ → Prop} {E E' : ε → σ → Prop} {m : EStateM ε σ α}

theorem ok (h : Behaves P m Q E) {s s' : σ} {a : α} (hs : P s) (hr : m s = .ok a s') : Q a s' := by
  have := h s hs
  rw [hr] at this
  exact this

theorem error (h : Behaves P m Q E) {s s' : σ} {e : ε} (hs : P s) (hr : m s = .error e s') : E e s' := by
  have := h s hs
  rw [hr] at this
  exact this

/-- What holds however it ends. -/
theorem endState {K : σ → Prop} (h : Behaves P m (fun _ => K) fun _ => K) {s : σ} (hs : P s) : K (endState (m s)) := by
  have := h s hs
  cases hr : m s <;> rw [hr] at this <;> exact this

theorem pre (h : Behaves P' m Q E) (hP : ∀ s, P s → P' s) : Behaves P m Q E := fun s hs => h s (hP s hs)

theorem post (h : Behaves P m Q E) (hQ : ∀ a s, Q a s → Q' a s) (hE : ∀ e s, E e s → E' e s) : Behaves P m Q' E' := by
  intro s hs
  have := h s hs
  cases hr : m s <;> rw [hr] at this
  · exact hQ _ _ this
  · exact hE _ _ this

theorem pure {a : α} (h : ∀ s, P s → Q a s) : Behaves P (pure a : EStateM ε σ α) Q E := fun s hs => h s hs

theorem throw {e : ε} (h : ∀ s, P s → E e s) : Behaves P (throw e : EStateM ε σ α) Q E := fun s hs => h s hs

theorem bind {f : α → EStateM ε σ β} {T : β → σ → Prop} (hm : Behaves P m Q E) (hf : ∀ a, Behaves (Q a) (f a) T E) :
    Behaves P (m >>= f) T E := by
  intro s hs
  cases hr : m s with
  | ok a s' =>
    rw [bind_ok hr]
    exact hf a s' (hm.ok hs hr)
  | error e s' =>
    rw [bind_error hr]
    exact hm.error hs hr

theorem ite {c : Prop} [Decidable c] {m' : EStateM ε σ α} (ht : c → Behaves P m Q E) (hf : ¬ c → Behaves P m' Q E) :
    Behaves P (if c then m else m') Q E := by
  split
  · exact ht ‹_›
  · exact hf ‹_›

/-- A computation on a part of the state. -/
theorem zoom {get : τ → σ} {set : σ → τ → τ} {P₁ : τ → Prop} {Q₁ : α → τ → Prop} {E₁ : ε → τ → Prop}
    (h : ∀ t, P₁ t → match m (get t) with
      | .ok a s' => Q₁ a (set s' t)
      | .error e s' => E₁ e (set s' t)) : Behaves P₁ (zoom get set m) Q₁ E₁ := by
  intro t ht
  have := h t ht
  rw [Lib.zoom]
  cases hr : m (get t) <;> rw [hr] at this <;> exact this

end Behaves

namespace Prog
variable {ℓ : Type} {P : σ → Prop} {Q : α → σ → Prop} {E : ε → σ → Prop} {p : Prog ℓ ε σ α}

theorem behaves_bind {f : α → Prog ℓ ε σ β} {T : β → σ → Prop} (hp : Behaves P p.run Q E)
    (hf : ∀ a, Behaves (Q a) (f a).run T E) : Behaves P (p >>= f).run T E := by
  rw [run_bind]
  exact hp.bind hf

theorem behaves_map {f : α → β} {T : β → σ → Prop} (hp : Behaves P p.run (fun a => T (f a)) E) :
    Behaves P (f <$> p).run T E := behaves_bind hp fun _ => .pure fun _ hs => hs

theorem behaves_ite {c : Prop} [Decidable c] {q : Prog ℓ ε σ α} (hp : Behaves P p.run Q E) (hq : Behaves P q.run Q E) :
    Behaves P (if c then p else q).run Q E := by
  split
  · exact hp
  · exact hq

end Prog

end Lib
