import Mathlib.Logic.Basic
import Mathlib.Order.Defs.Unbundled

/-! # Computations that keep an invariant

`EStateM ε σ α` is a computation over a state that may throw and does not undo, when it throws, what it
already changed. `Keeps` is the judgement used throughout: from a state with the invariant, every end
of the computation, returned or thrown, has the invariant again and is related to the start by a
preorder `R` (what a step may change), and a returned value has a postcondition that `R` cannot undo. -/

namespace Lib

open EStateM (Result)

variable {ε σ τ α β : Type}

/-- The state a computation ends in, whether it returns or throws. -/
def endState : Result ε σ α → σ
  | .ok _ s => s
  | .error _ s => s

@[simp] theorem endState_ok {a : α} {s : σ} : endState (.ok a s : Result ε σ α) = s := rfl
@[simp] theorem endState_error {e : ε} {s : σ} : endState (.error e s : Result ε σ α) = s := rfl

def returned : Result ε σ α → Bool
  | .ok _ _ => true
  | .error _ _ => false

theorem ok_of_returned {r : Result ε σ α} (h : returned r = true) : ∃ a, r = .ok a (endState r) := by
  cases r with
  | ok a s => exact ⟨a, rfl⟩
  | error e s => cases h

/-- The same, where there is one value only. -/
theorem unit_of_returned {r : Result ε σ Unit} (h : returned r = true) : r = .ok () (endState r) :=
  (ok_of_returned h).elim fun _ hr => hr

/-- `m` run on a part of a larger state. -/
def zoom (get : τ → σ) (set : σ → τ → τ) (m : EStateM ε σ α) : EStateM ε τ α := fun t =>
  match m (get t) with
  | .ok a s => .ok a (set s t)
  | .error e s => .error e (set s t)

theorem zoom_ok {get : τ → σ} {set : σ → τ → τ} {m : EStateM ε σ α} {t : τ} {a : α} {s : σ}
    (h : m (get t) = .ok a s) : zoom get set m t = .ok a (set s t) := by
  simp [zoom, h]

theorem zoom_error {get : τ → σ} {set : σ → τ → τ} {m : EStateM ε σ α} {t : τ} {e : ε} {s : σ}
    (h : m (get t) = .error e s) : zoom get set m t = .error e (set s t) := by
  simp [zoom, h]

theorem bind_ok {m : EStateM ε σ α} {f : α → EStateM ε σ β} {s s' : σ} {a : α} (h : m s = .ok a s') :
    (m >>= f) s = f a s' := by
  show (match m s with | .ok a s => f a s | .error e s => .error e s) = _
  rw [h]

theorem bind_error {m : EStateM ε σ α} {f : α → EStateM ε σ β} {s s' : σ} {e : ε} (h : m s = .error e s') :
    (m >>= f) s = .error e s' := by
  show (match m s with | .ok a s => f a s | .error e s => .error e s) = _
  rw [h]

/-- What a sequence that returned went through. -/
theorem of_bind_ok {m : EStateM ε σ α} {f : α → EStateM ε σ β} {s s' : σ} {b : β} (h : (m >>= f) s = .ok b s') :
    ∃ a s₁, m s = .ok a s₁ ∧ f a s₁ = .ok b s' := by
  cases hm : m s with
  | ok a s₁ => exact ⟨a, s₁, rfl, (bind_ok hm).symm.trans h⟩
  | error e s₁ => cases (bind_error hm).symm.trans h

/-- From a state with `I` and `P`, `m` ends only in states with `I` that `R` relates to the start, and
    returns only values with `Q`. -/
def Keeps (I : σ → Prop) (R : σ → σ → Prop) (P : σ → Prop) (m : EStateM ε σ α) (Q : α → σ → Prop) : Prop :=
  ∀ s, I s → P s → match m s with
    | .ok a s' => I s' ∧ R s s' ∧ Q a s'
    | .error _ s' => I s' ∧ R s s'

namespace Keeps
variable {I : σ → Prop} {R : σ → σ → Prop} {P P' : σ → Prop} {Q Q' : α → σ → Prop} {m : EStateM ε σ α}

theorem endState (h : Keeps I R P m Q) {s : σ} (hI : I s) (hP : P s) :
    I (endState (m s)) ∧ R s (endState (m s)) := by
  have := h s hI hP
  cases hm : m s <;> rw [hm] at this
  · exact ⟨this.1, this.2.1⟩
  · exact this

theorem mono (h : Keeps I R P m Q) (hP : ∀ s, P' s → P s) (hQ : ∀ a s, Q a s → Q' a s) :
    Keeps I R P' m Q' := by
  intro s hI hs
  have := h s hI (hP s hs)
  cases hm : m s <;> rw [hm] at this
  · exact ⟨this.1, this.2.1, hQ _ _ this.2.2⟩
  · exact this

theorem pure [Std.Refl R] {a : α} (h : ∀ s, I s → P s → Q a s) : Keeps I R P (pure a : EStateM ε σ α) Q :=
  fun s hI hP => ⟨hI, refl_of R s, h s hI hP⟩

theorem throw [Std.Refl R] {e : ε} : Keeps I R P (throw e : EStateM ε σ α) Q :=
  fun s hI _ => ⟨hI, refl_of R s⟩

/-- Sequencing: what held before the first part still holds after it when `R` keeps it. -/
theorem bind [IsTrans σ R] {f : α → EStateM ε σ β} {T : β → σ → Prop}
    (hm : Keeps I R P m Q) (hf : ∀ a, Keeps I R (Q a) (f a) T) : Keeps I R P (m >>= f) T := by
  intro s hI hP
  have h1 := hm s hI hP
  cases h : m s with
  | ok a s' =>
    rw [h] at h1
    rw [bind_ok h]
    have h2 := hf a s' h1.1 h1.2.2
    cases h' : f a s' <;> rw [h'] at h2
    · exact ⟨h2.1, trans_of R h1.2.1 h2.2.1, h2.2.2⟩
    · exact ⟨h2.1, trans_of R h1.2.1 h2.2⟩
  | error e s' =>
    rw [h] at h1
    rw [bind_error h]
    exact h1

theorem ite {c : Prop} [Decidable c] {m' : EStateM ε σ α} (ht : c → Keeps I R P m Q)
    (hf : ¬c → Keeps I R P m' Q) : Keeps I R P (if c then m else m') Q := by
  split
  · exact ht ‹_›
  · exact hf ‹_›

end Keeps

end Lib
