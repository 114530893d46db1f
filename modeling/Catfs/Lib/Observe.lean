import Catfs.Lib.Moves

/-! # What changes an observation

An observation is a function of the state. When it differs after a run, some step changed it last, and what it shows is
what that step made of it. -/

namespace Lib

open EStateM (Result)
open Relation

section
variable {σ β : Type} {step : σ → σ → Prop} {f : σ → β} {x y : σ}

/-- The steps that leave the observation `f` as it is. -/
def Keeping (f : σ → β) (step : σ → σ → Prop) (x y : σ) : Prop := step x y ∧ f y = f x

theorem runs_of_keeping (h : ReflTransGen (Keeping f step) x y) : ReflTransGen step x y :=
  ReflTransGen.mono (fun _ _ hs => hs.1) _ _ h

theorem observe_keeping (h : ReflTransGen (Keeping f step) x y) : f y = f x := by
  induction h with
  | refl => rfl
  | tail _ hs ih => exact hs.2.trans ih

/-- An observation that differs after a run was changed by some step, and by none after it. -/
theorem last_change (h : ReflTransGen step x y) (hne : f y ≠ f x) :
    ∃ a b, ReflTransGen step x a ∧ step a b ∧ f b ≠ f a ∧ ReflTransGen (Keeping f step) b y := by
  induction h with
  | refl => exact absurd rfl hne
  | @tail a b h hs ih =>
    by_cases hab : f b = f a
    · obtain ⟨a', b', ha, hs', hne', hb⟩ := ih (hab ▸ hne)
      exact ⟨a', b', ha, hs', hne', hb.tail ⟨hs, hab⟩⟩
    · exact ⟨a, b, h, hs, hab, .refl⟩

end

namespace Prog
variable {ℓ ε σ α β : Type}

theorem Preserves.weaken {A A' : ℓ → Prop} {I : σ → Prop} {R R' : σ → σ → Prop} {p : Prog ℓ ε σ α} (h : p.Preserves A I R)
    (hA : ∀ l, A l → A' l) (hR : ∀ s s', I s → I s' → R s s' → R' s s') : p.Preserves A' I R' := by
  induction p with
  | ret a => trivial
  | fail e => trivial
  | act l f k ih =>
    obtain ⟨hl, hf, hk⟩ := h
    refine ⟨hA l hl, fun s hs _ => ?_, fun b => ih b (hk b)⟩
    have hend := hf s hs trivial
    cases hfs : f s with
    | ok b s' =>
      rw [hfs] at hend
      exact ⟨hend.1, hR _ _ hs hend.1 hend.2.1, trivial⟩
    | error e s' =>
      rw [hfs] at hend
      exact ⟨hend.1, hR _ _ hs hend.1 hend.2⟩

variable {G : σ → σ → Prop} {R : ℓ → σ → σ → Prop} {I P : σ → Prop} {Q : α → σ → Prop}
  {p : Prog ℓ ε σ α} {T : σ → β → Prop} {f : σ → β} {s : σ}

theorem Moves.returns {F : α → Prop} (h : p.Moves G R I P Q) (hF : p.Returns F) :
    p.Moves G R I P fun a s => F a ∧ Q a s := by
  induction p generalizing P with
  | ret a => exact fun s hI hs => ⟨hF, h s hI hs⟩
  | fail e => trivial
  | act l f k ih =>
    obtain ⟨M, hf, hk⟩ := h
    exact ⟨M, hf, fun b => ⟨(hk b).1, ih b (hk b).2 (hF b)⟩⟩

theorem moves_false : p.Moves G R I (fun _ => False) Q := by
  induction p with
  | ret a => exact fun _ _ hs => hs.elim
  | fail e => trivial
  | act l f k ih => exact ⟨fun _ _ => False, fun _ _ hs => hs.elim, fun b => ⟨fun _ _ _ hs => hs, ih b⟩⟩

/-- A fact that does not depend on the state. -/
theorem Moves.of_fact {φ : Prop} (h : φ → p.Moves G R I P Q) : p.Moves G R I (fun s => φ ∧ P s) Q := by
  by_cases hφ : φ
  · exact (h hφ).pre fun _ hs => hs.2
  · exact moves_false.pre fun _ hs => hφ hs.1

/-- When each step that changes the observation makes of it what `T` allows, and `T` is never taken back, what a run
    that changed it shows is allowed. -/
theorem Moves.observe (h : p.Moves G R I P Q) (hI : ∀ l s s', I s → R l s s' → I s')
    (hT : ∀ l s s', I s → R l s s' → ∀ b, T s b → T s' b) (hch : ∀ l s s', I s → R l s s' → f s' ≠ f s → T s (f s'))
    (hs : I s) (hP : P s) : (f (endState (p.run s)) = f s ∨ T (endState (p.run s)) (f (endState (p.run s)))) ∧
      ∀ b, T s b → T (endState (p.run s)) b := by
  induction p generalizing P s with
  | ret a => exact ⟨.inl rfl, fun _ hb => hb⟩
  | fail e => exact ⟨.inl rfl, fun _ hb => hb⟩
  | act l g k ih =>
    obtain ⟨M, hg, hk⟩ := h
    obtain ⟨hr, hM⟩ := hg s hs hP
    have hone : f (endState (g s)) = f s ∨ T (endState (g s)) (f (endState (g s))) :=
      or_iff_not_imp_left.mpr fun hne => hT l s _ hs hr _ (hch l s _ hs hr hne)
    cases hgs : g s with
    | ok b s₁ =>
      rw [hgs] at hr hone
      rw [run_act_ok hgs]
      obtain ⟨hrest, hkept⟩ := ih b (hk b).2 (hI l s s₁ hs hr) (hM b s₁ hgs)
      refine ⟨hrest.elim (fun heq => ?_) .inr, fun c hc => hkept c (hT l s s₁ hs hr c hc)⟩
      refine hone.imp heq.trans fun hc => ?_
      rw [heq]
      exact hkept _ hc
    | error e s₁ =>
      rw [hgs] at hr hone
      rw [run_act_error hgs]
      exact ⟨hone, fun c hc => hT l s s₁ hs hr c hc⟩

end Prog

end Lib
