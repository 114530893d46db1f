import Catfs.Lib.Exec

/-! # Programs of atomic steps

A program is a sequence of labelled atomic steps, each a computation over the shared state, and each
next step depends on the values the earlier ones returned. Run alone it is a computation (`run`), it
leaves the labels of the steps it took (`trace`), and it passes through the states between its steps
(`states`). One step at a time (`step`) it can be interleaved with others (`Catfs.Lib.Pool`). -/

namespace Lib

open EStateM (Result)

/-- A program over states `σ`, throwing `ε`, whose atomic steps carry labels `ℓ`. -/
inductive Prog (ℓ ε σ α : Type) : Type 1 where
  | ret (a : α)
  | fail (e : ε)
  | act {β : Type} (l : ℓ) (f : EStateM ε σ β) (k : β → Prog ℓ ε σ α)

namespace Prog
variable {ℓ ε σ α β : Type}

def bind : Prog ℓ ε σ α → (α → Prog ℓ ε σ β) → Prog ℓ ε σ β
  | ret a, g => g a
  | fail e, _ => fail e
  | act l f k, g => act l f fun b => (k b).bind g

instance : Monad (Prog ℓ ε σ) where
  pure := ret
  bind := bind

/-- One atomic step. -/
def lift (l : ℓ) (f : EStateM ε σ α) : Prog ℓ ε σ α := act l f ret

/-- The program run alone. -/
def run : Prog ℓ ε σ α → EStateM ε σ α
  | ret a => fun s => .ok a s
  | fail e => fun s => .error e s
  | act _ f k => fun s =>
    match f s with
    | .ok b s' => (k b).run s'
    | .error e s' => .error e s'

/-- The labels of the steps the program takes when it runs alone. -/
def trace : Prog ℓ ε σ α → σ → List ℓ
  | ret _, _ => []
  | fail _, _ => []
  | act l f k, s =>
    l :: match f s with
      | .ok b s' => (k b).trace s'
      | .error _ _ => []

/-- The step that throws when the program runs alone, and what it throws. -/
def thrown : Prog ℓ ε σ α → σ → Option (ℓ × ε)
  | ret _, _ => none
  | fail _, _ => none
  | act l f k, s =>
    match f s with
    | .ok b s' => (k b).thrown s'
    | .error e _ => some (l, e)

/-- The states the program passes through when it runs alone: the one before each step and the last. -/
def states : Prog ℓ ε σ α → σ → List σ
  | ret _, s => [s]
  | fail _, s => [s]
  | act _ f k, s =>
    s :: match f s with
      | .ok b s' => (k b).states s'
      | .error _ s' => [s']

/-- The steps the program takes when it runs alone, each with the states before and after it. -/
def transitions : Prog ℓ ε σ α → σ → List (ℓ × σ × σ)
  | ret _, _ => []
  | fail _, _ => []
  | act l f k, s =>
    (l, s, endState (f s)) :: match f s with
      | .ok b s' => (k b).transitions s'
      | .error _ _ => []

/-- The next step: its label, the program that remains and the state after it. -/
def step : Prog ℓ ε σ α → σ → Option (ℓ × Prog ℓ ε σ α × σ)
  | ret _, _ => none
  | fail _, _ => none
  | act l f k, s =>
    some (l, match f s with
      | .ok b s' => (k b, s')
      | .error e s' => (fail e, s'))

section Run
variable {p : Prog ℓ ε σ α} {g : α → Prog ℓ ε σ β} {s s' : σ}

@[simp] theorem run_ret (a : α) : (ret a : Prog ℓ ε σ α).run s = .ok a s := rfl
@[simp] theorem run_pure (a : α) : (pure a : Prog ℓ ε σ α).run s = .ok a s := rfl
@[simp] theorem run_fail (e : ε) : (fail e : Prog ℓ ε σ α).run s = .error e s := rfl

@[simp] theorem run_lift (l : ℓ) (f : EStateM ε σ α) : (lift l f).run s = f s := by
  simp only [lift, run]
  cases f s <;> rfl

theorem run_act_ok {l : ℓ} {f : EStateM ε σ β} {k : β → Prog ℓ ε σ α} {b : β} (h : f s = .ok b s') :
    (act l f k).run s = (k b).run s' := by
  simp only [run, h]

theorem run_act_error {l : ℓ} {f : EStateM ε σ β} {k : β → Prog ℓ ε σ α} {e : ε} (h : f s = .error e s') :
    (act l f k).run s = .error e s' := by
  simp only [run, h]

/-- Running is a monad morphism. -/
theorem run_bind : (p >>= g).run = (p.run >>= fun a => (g a).run) := by
  funext s
  induction p generalizing s with
  | ret a => rfl
  | fail e => rfl
  | act l f k ih =>
    show (act l f fun b => (k b).bind g).run s = _
    cases h : f s with
    | ok b s' =>
      rw [run_act_ok h]
      refine (ih b s').trans ?_
      show _ = EStateM.bind (act l f k).run (fun a => (g a).run) s
      rw [EStateM.bind, run_act_ok h]
      rfl
    | error e s' => rw [run_act_error h, bind_error (run_act_error h)]

theorem run_bind_apply : (p >>= g).run s = match p.run s with
    | .ok a s' => (g a).run s'
    | .error e s' => .error e s' := by
  rw [run_bind]
  rfl

theorem run_bind_ok {a : α} (h : p.run s = .ok a s') : (p >>= g).run s = (g a).run s' := by
  rw [run_bind_apply, h]

theorem run_map_ok {f : α → β} {a : α} (h : p.run s = .ok a s') : (f <$> p).run s = .ok (f a) s' := run_bind_ok h

theorem run_map_error {f : α → β} {e : ε} (h : (f <$> p).run s = .error e s') : p.run s = .error e s' := by
  have hb : (f <$> p).run s = match p.run s with
      | .ok a s' => .ok (f a) s'
      | .error e s' => .error e s' := run_bind_apply
  rw [hb] at h
  cases hp : p.run s with
  | ok a s₁ =>
    rw [hp] at h
    cases h
  | error e₁ s₁ =>
    rw [hp] at h
    obtain ⟨rfl, rfl⟩ := Result.error.inj h
    rfl

theorem run_bind_error {e : ε} (h : p.run s = .error e s') : (p >>= g).run s = .error e s' := by
  rw [run_bind_apply, h]

theorem endState_run_map {f : α → β} : endState ((f <$> p).run s) = endState (p.run s) := by
  cases hp : p.run s with
  | ok a s' => rw [run_map_ok hp, endState_ok, endState_ok]
  | error e s' =>
    have hm : (f <$> p).run s = .error e s' := run_bind_error hp
    rw [hm, endState_error, endState_error]

theorem map_bind {γ : Type} (f : β → γ) : f <$> (p >>= g) = p >>= fun a => f <$> g a := by
  show (p.bind g).bind (ret ∘ f) = p.bind fun a => (g a).bind (ret ∘ f)
  induction p with
  | ret a => rfl
  | fail e => rfl
  | act l h k ih => simp only [bind, ih]

/-- What a step throws is what the program throws. -/
theorem run_of_thrown {l : ℓ} {e : ε} (h : p.thrown s = some (l, e)) : ∃ s', p.run s = .error e s' := by
  induction p generalizing s with
  | ret a => cases h
  | fail e' => cases h
  | act l' f k ih =>
    rw [thrown] at h
    cases hf : f s with
    | ok b s₁ =>
      rw [hf] at h
      rw [run_act_ok hf]
      exact ih b h
    | error e' s₁ =>
      rw [hf] at h
      obtain ⟨-, rfl⟩ := Prod.mk.inj (Option.some.inj h)
      exact ⟨s₁, run_act_error hf⟩

@[simp] theorem trace_pure (a : α) : (pure a : Prog ℓ ε σ α).trace s = [] := rfl
@[simp] theorem trace_fail (e : ε) : (fail e : Prog ℓ ε σ α).trace s = [] := rfl

@[simp] theorem trace_lift (l : ℓ) (f : EStateM ε σ α) : (lift l f).trace s = [l] := by
  simp only [lift, trace]
  cases f s <;> rfl

theorem trace_bind : (p >>= g).trace s = p.trace s ++ match p.run s with
    | .ok a s' => (g a).trace s'
    | .error _ _ => [] := by
  show (p.bind g).trace s = _
  induction p generalizing s with
  | ret b => rfl
  | fail e => rfl
  | act l f k ih =>
    cases hf : f s with
    | ok b s₁ => simp only [bind, trace, run, hf, List.cons_append, ih b]
    | error e s₁ => simp only [bind, trace, run, hf, List.append_nil]

theorem trace_bind_ok {a : α} (h : p.run s = .ok a s') : (p >>= g).trace s = p.trace s ++ (g a).trace s' := by
  rw [trace_bind, h]

/-- A condition on the labels of a sequence, part by part. -/
theorem forall_trace_bind {A : ℓ → Prop} (hp : ∀ l ∈ p.trace s, A l)
    (hg : ∀ a s', p.run s = .ok a s' → ∀ l ∈ (g a).trace s', A l) : ∀ l ∈ (p >>= g).trace s, A l := by
  intro l hl
  rw [trace_bind] at hl
  rcases List.mem_append.mp hl with hl | hl
  · exact hp l hl
  · cases hr : p.run s with
    | ok a s' =>
      rw [hr] at hl
      exact hg a s' hr l hl
    | error e s' =>
      rw [hr] at hl
      cases hl

@[simp] theorem states_pure (a : α) : (pure a : Prog ℓ ε σ α).states s = [s] := rfl
@[simp] theorem states_fail (e : ε) : (fail e : Prog ℓ ε σ α).states s = [s] := rfl

@[simp] theorem states_lift (l : ℓ) (f : EStateM ε σ α) : (lift l f).states s = [s, endState (f s)] := by
  simp only [lift, states]
  cases f s <;> rfl

theorem mem_states_self : s ∈ p.states s := by
  cases p <;> simp [states]

/-- The state a run ends in is one it passes through. -/
theorem endState_mem_states : endState (p.run s) ∈ p.states s := by
  induction p generalizing s with
  | ret b => simp [run, states]
  | fail e => simp [run, states]
  | act l f k ih =>
    simp only [run, states]
    cases f s with
    | ok b s₁ => exact List.mem_cons_of_mem _ (ih b)
    | error e s₁ => simp

/-- A sequence passes through the states of its first part and then those of its second. -/
theorem mem_states_bind {x : σ} : x ∈ (p >>= g).states s ↔ x ∈ p.states s ∨ match p.run s with
    | .ok a s' => x ∈ (g a).states s'
    | .error _ _ => False := by
  show x ∈ (p.bind g).states s ↔ _
  induction p generalizing s with
  | ret b =>
    simp only [bind, states, run, List.mem_singleton]
    exact ⟨Or.inr, fun hx => hx.elim (fun h => h ▸ mem_states_self) id⟩
  | fail e => simp [bind, states, run]
  | act l f k ih =>
    cases hf : f s with
    | ok b s₁ => simp only [bind, states, run, hf, List.mem_cons, ih b, or_assoc]
    | error e s₁ => simp [bind, states, run, hf]

/-- Every step of the run has a label in `A`, and every state it passes through is in `S`. -/
def Within (A : ℓ → Prop) (S : σ → Prop) (p : Prog ℓ ε σ α) (s : σ) : Prop :=
  (∀ l ∈ p.trace s, A l) ∧ ∀ x ∈ p.states s, S x

variable {A : ℓ → Prop} {S : σ → Prop}

@[simp] theorem within_pure (a : α) : (pure a : Prog ℓ ε σ α).Within A S s ↔ S s := by
  simp [Within]

@[simp] theorem within_lift (l : ℓ) (f : EStateM ε σ α) :
    (lift l f).Within A S s ↔ A l ∧ S s ∧ S (endState (f s)) := by
  simp [Within]

theorem Within.finish (h : p.Within A S s) : S (endState (p.run s)) := h.2 _ endState_mem_states

theorem within_bind : (p >>= g).Within A S s ↔ p.Within A S s ∧ match p.run s with
    | .ok a s' => (g a).Within A S s'
    | .error _ _ => True := by
  simp only [Within, trace_bind, mem_states_bind]
  cases p.run s with
  | ok a s' =>
    constructor
    · rintro ⟨ht, hs⟩
      exact ⟨⟨fun l hl => ht l (List.mem_append_left _ hl), fun x hx => hs x (.inl hx)⟩,
        fun l hl => ht l (List.mem_append_right _ hl), fun x hx => hs x (.inr hx)⟩
    · rintro ⟨⟨ht, hs⟩, ht', hs'⟩
      exact ⟨fun l hl => (List.mem_append.mp hl).elim (ht l) (ht' l), fun x hx => hx.elim (hs x) (hs' x)⟩
  | error e s' => simp

end Run

/-! ### Steps that all keep an invariant -/

/-- Whatever the earlier steps returned, each step of the program has a label in `A`, keeps `I` and moves along
    `R`. -/
def Preserves (A : ℓ → Prop) (I : σ → Prop) (R : σ → σ → Prop) : Prog ℓ ε σ α → Prop
  | ret _ => True
  | fail _ => True
  | act l f k => A l ∧ Keeps I R (fun _ => True) f (fun _ _ => True) ∧ ∀ b, (k b).Preserves A I R

section Preserves
variable {A : ℓ → Prop} {I : σ → Prop} {R : σ → σ → Prop} {p : Prog ℓ ε σ α} {g : α → Prog ℓ ε σ β} {s s' : σ}

theorem preserves_lift {l : ℓ} {f : EStateM ε σ α} (hl : A l) (h : Keeps I R (fun _ => True) f fun _ _ => True) :
    (lift l f).Preserves A I R := ⟨hl, h, fun _ => trivial⟩

theorem Preserves.bind (hp : p.Preserves A I R) (hg : ∀ a, (g a).Preserves A I R) : (p >>= g).Preserves A I R := by
  show (p.bind g).Preserves A I R
  induction p with
  | ret a => exact hg a
  | fail e => trivial
  | act l f k ih => exact ⟨hp.1, hp.2.1, fun b => ih b (hp.2.2 b)⟩

theorem Preserves.map {f : α → β} (hp : p.Preserves A I R) : (f <$> p).Preserves A I R := hp.bind fun _ => trivial

theorem Preserves.ite {c : Prop} [Decidable c] {q : Prog ℓ ε σ α} (hp : p.Preserves A I R) (hq : q.Preserves A I R) :
    (if c then p else q).Preserves A I R := by
  split
  · exact hp
  · exact hq

theorem Preserves.run [Std.Refl R] [IsTrans σ R] (h : p.Preserves A I R) (hI : I s) :
    I (endState (p.run s)) ∧ R s (endState (p.run s)) := by
  induction p generalizing s with
  | ret a => exact ⟨hI, refl_of R s⟩
  | fail e => exact ⟨hI, refl_of R s⟩
  | act l f k ih =>
    have hf := h.2.1.endState hI trivial
    cases hs : f s with
    | ok b s₁ =>
      rw [hs] at hf
      rw [run_act_ok hs]
      obtain ⟨hI', hR⟩ := ih b (h.2.2 b) hf.1
      exact ⟨hI', trans_of R hf.2 hR⟩
    | error e s₁ =>
      rw [hs] at hf
      rw [run_act_error hs]
      exact hf

theorem Preserves.trace (h : p.Preserves A I R) : ∀ l ∈ p.trace s, A l := by
  induction p generalizing s with
  | ret a => exact fun _ hl => absurd hl List.not_mem_nil
  | fail e => exact fun _ hl => absurd hl List.not_mem_nil
  | act l f k ih =>
    intro l' hl'
    rw [Prog.trace] at hl'
    rcases List.mem_cons.mp hl' with rfl | hl'
    · exact h.1
    · cases hf : f s with
      | ok b s₁ =>
        rw [hf] at hl'
        exact ih b (h.2.2 b) l' hl'
      | error e s₁ =>
        rw [hf] at hl'
        cases hl'

end Preserves

/-! ### Returned values -/

/-- The program returns only values with `Q`, whatever its steps return. -/
def Returns (Q : α → Prop) : Prog ℓ ε σ α → Prop
  | ret a => Q a
  | fail _ => True
  | act _ _ k => ∀ b, (k b).Returns Q

section Returns
variable {Q : β → Prop} {p : Prog ℓ ε σ α} {g : α → Prog ℓ ε σ β}

theorem returns_pure {b : β} (h : Q b) : (pure b : Prog ℓ ε σ β).Returns Q := h

theorem Returns.mono {Q' : β → Prop} {q : Prog ℓ ε σ β} (h : q.Returns Q) (hQ : ∀ b, Q b → Q' b) : q.Returns Q' := by
  induction q with
  | ret a => exact hQ a h
  | fail e => trivial
  | act l f k ih => exact fun b => ih b (h b)

theorem Returns.bind (hg : ∀ a, (g a).Returns Q) : (p >>= g).Returns Q := by
  show (p.bind g).Returns Q
  induction p with
  | ret a => exact hg a
  | fail e => trivial
  | act l f k ih => exact fun b => ih b

theorem Returns.run {s s' : σ} {q : Prog ℓ ε σ β} {b : β} (h : q.Returns Q) (hr : q.run s = .ok b s') : Q b := by
  induction q generalizing s with
  | ret a =>
    obtain ⟨rfl, -⟩ := Result.ok.inj hr
    exact h
  | fail e => cases hr
  | act l f k ih =>
    cases hf : f s with
    | ok x s₁ =>
      rw [run_act_ok hf] at hr
      exact ih x (h x) hr
    | error e s₁ =>
      rw [run_act_error hf] at hr
      cases hr

end Returns

end Prog

end Lib
