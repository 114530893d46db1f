import Catfs.Lib.Pool

/-! # The effects of a program's steps

`Moves` says of each step of a program what its label allows it to do to the state, whoever else takes steps in
between. An invariant that all effects keep then holds in every state that programs lead to. -/

namespace Lib

open EStateM (Result)
open Relation

namespace Prog
variable {ℓ ε σ α β : Type}

/-- What `G` keeps is kept. -/
def Persists (G : σ → σ → Prop) (P : σ → Prop) : Prop := ∀ s s', G s s' → P s → P s'

/-- Run from a state with `P`, in states with `I` and among others that move along `G`, each step `l` leads along
    `R l`, and a value is returned only with `Q`. -/
def Moves (G : σ → σ → Prop) (R : ℓ → σ → σ → Prop) (I : σ → Prop) :
    Prog ℓ ε σ α → (σ → Prop) → (α → σ → Prop) → Prop
  | ret a, P, Q => ∀ s, I s → P s → Q a s
  | fail _, _, _ => True
  | act l f k, P, Q => ∃ M : _ → σ → Prop,
      (∀ s, I s → P s → R l s (endState (f s)) ∧ ∀ b s', f s = .ok b s' → M b s') ∧
      ∀ b, Persists G (M b) ∧ (k b).Moves G R I (M b) Q

variable {G : σ → σ → Prop} {R : ℓ → σ → σ → Prop} {I P P' : σ → Prop} {Q Q' : α → σ → Prop} {p : Prog ℓ ε σ α}

theorem persists_true : Persists G fun _ => True := fun _ _ _ _ => trivial

theorem Moves.pre (h : p.Moves G R I P' Q) (hP : ∀ s, P s → P' s) : p.Moves G R I P Q := by
  cases p with
  | ret a => exact fun s hI hs => h s hI (hP s hs)
  | fail e => trivial
  | act l f k =>
    obtain ⟨M, hf, hk⟩ := h
    exact ⟨M, fun s hI hs => hf s hI (hP s hs), hk⟩

theorem Moves.post (h : p.Moves G R I P Q) (hQ : ∀ a s, Q a s → Q' a s) : p.Moves G R I P Q' := by
  induction p generalizing P with
  | ret a => exact fun s hI hs => hQ a s (h s hI hs)
  | fail e => trivial
  | act l f k ih =>
    obtain ⟨M, hf, hk⟩ := h
    exact ⟨M, hf, fun b => ⟨(hk b).1, ih b (hk b).2⟩⟩

theorem moves_pure {a : α} (h : ∀ s, P s → Q a s) : (pure a : Prog ℓ ε σ α).Moves G R I P Q := fun s _ hs => h s hs

theorem moves_lift {l : ℓ} {f : EStateM ε σ α} (hQ : ∀ a, Persists G (Q a))
    (h : ∀ s, I s → P s → R l s (endState (f s)) ∧ ∀ a s', f s = .ok a s' → Q a s') : (lift l f).Moves G R I P Q :=
  ⟨Q, h, fun a => ⟨hQ a, fun _ _ hs => hs⟩⟩

theorem Moves.bind {g : β → Prog ℓ ε σ α} {q : Prog ℓ ε σ β} {M : β → σ → Prop} (hq : q.Moves G R I P M)
    (hg : ∀ b, (g b).Moves G R I (M b) Q) : (q >>= g).Moves G R I P Q := by
  show (q.bind g).Moves G R I P Q
  induction q generalizing P with
  | ret b =>
    have hb := hg b
    show (g b).Moves G R I P Q
    cases hgb : g b with
    | ret a =>
      rw [hgb] at hb
      exact fun s hI hs => hb s hI (hq s hI hs)
    | fail e => trivial
    | act l f k =>
      rw [hgb] at hb
      obtain ⟨N, hf, hk⟩ := hb
      exact ⟨N, fun s hI hs => hf s hI (hq s hI hs), hk⟩
  | fail e => trivial
  | act l f k ih =>
    obtain ⟨N, hf, hk⟩ := hq
    exact ⟨N, hf, fun b => ⟨(hk b).1, ih b (hk b).2⟩⟩

theorem Moves.map {f : β → α} {q : Prog ℓ ε σ β} (hq : q.Moves G R I P fun b => Q (f b)) : (f <$> q).Moves G R I P Q :=
  hq.bind fun _ _ _ hs => hs

theorem Moves.ite {c : Prop} [Decidable c] {q : Prog ℓ ε σ α} (hp : p.Moves G R I P Q) (hq : q.Moves G R I P Q) :
    (if c then p else q).Moves G R I P Q := by
  split
  · exact hp
  · exact hq

/-- A program whose steps all keep what persists, and move as their labels allow. -/
theorem moves_of_preserves {A : ℓ → Prop} {S : σ → σ → Prop} (hp : p.Preserves A I S)
    (hR : ∀ l s s', A l → I s → S s s' → R l s s' ∧ G s s') (hP : Persists G P) : p.Moves G R I P fun _ => P := by
  induction p with
  | ret a => exact fun _ _ hs => hs
  | fail e => trivial
  | act l f k ih =>
    obtain ⟨hl, hf, hk⟩ := hp
    refine ⟨fun _ => P, fun s hI hs => ?_, fun b => ⟨hP, ih b (hk b)⟩⟩
    have hend := hf.endState hI trivial
    obtain ⟨hr, hg⟩ := hR l s _ hl hI hend.2
    refine ⟨hr, fun b s' hok => ?_⟩
    rw [hok] at hg
    exact hP _ _ hg hs

/-- One step of a thread. -/
theorem Moves.step {p' : Prog ℓ ε σ α} {s s' : σ} {l : ℓ} (h : p.Moves G R I P Q) (hI : I s) (hP : P s)
    (hs : p.step s = some (l, p', s')) :
    R l s s' ∧ ∃ P', Persists G P' ∧ P' s' ∧ p'.Moves G R I P' Q := by
  cases p with
  | ret a => cases hs
  | fail e => cases hs
  | act l' f k =>
    obtain ⟨M, hf, hk⟩ := h
    obtain ⟨hr, hM⟩ := hf s hI hP
    simp only [Prog.step, Option.some.injEq, Prod.mk.injEq] at hs
    obtain ⟨rfl, hs⟩ := hs
    cases hfs : f s with
    | ok b s₁ =>
      rw [hfs] at hr hs
      obtain ⟨rfl, rfl⟩ := Prod.mk.inj hs
      exact ⟨hr, M b, (hk b).1, hM b _ hfs, (hk b).2⟩
    | error e s₁ =>
      rw [hfs] at hr hs
      obtain ⟨rfl, rfl⟩ := Prod.mk.inj hs
      exact ⟨hr, fun _ => True, persists_true, trivial, trivial⟩

/-- Each step has the effect that `E` gives its label, in every state and whatever the earlier steps returned. -/
def Does (E : ℓ → σ → σ → Prop) : Prog ℓ ε σ α → Prop
  | ret _ => True
  | fail _ => True
  | act l f k => (∀ s, E l s (endState (f s))) ∧ ∀ b, (k b).Does E

section
variable {E : ℓ → σ → σ → Prop}

theorem does_lift {l : ℓ} {f : EStateM ε σ α} (h : ∀ s, E l s (endState (f s))) : (lift l f).Does E := ⟨h, fun _ => trivial⟩

theorem Does.bind {g : β → Prog ℓ ε σ α} {q : Prog ℓ ε σ β} (hq : q.Does E) (hg : ∀ b, (g b).Does E) : (q >>= g).Does E := by
  show (q.bind g).Does E
  induction q with
  | ret b => exact hg b
  | fail e => trivial
  | act l f k ih => exact ⟨hq.1, fun b => ih b (hq.2 b)⟩

theorem Does.map {f : β → α} {q : Prog ℓ ε σ β} (hq : q.Does E) : (f <$> q).Does E := hq.bind fun _ => trivial

theorem Does.ite {c : Prop} [Decidable c] {q : Prog ℓ ε σ α} (hp : p.Does E) (hq : q.Does E) : (if c then p else q).Does E := by
  split
  · exact hp
  · exact hq

theorem Moves.and (hp : p.Moves G R I P Q) (hd : p.Does E) : p.Moves G (fun l s s' => R l s s' ∧ E l s s') I P Q := by
  induction p generalizing P with
  | ret a => exact hp
  | fail e => trivial
  | act l f k ih =>
    obtain ⟨M, hf, hk⟩ := hp
    exact ⟨M, fun s hI hs => ⟨⟨(hf s hI hs).1, hd.1 s⟩, (hf s hI hs).2⟩, fun b => ⟨(hk b).1, ih b (hk b).2 (hd.2 b)⟩⟩

end

/-- Run alone, each step of the program has the effect that its label allows. -/
theorem Moves.transitions [Std.Refl G] [IsTrans σ G] (h : p.Moves G R I P Q)
    (hstep : ∀ l s s', I s → R l s s' → I s' ∧ G s s') {s : σ} (hI : I s) (hP : P s) :
    (∀ e ∈ p.transitions s, I e.2.1 ∧ R e.1 e.2.1 e.2.2 ∧ I e.2.2 ∧ G e.2.2 (endState (p.run s))) ∧
      I (endState (p.run s)) ∧ G s (endState (p.run s)) := by
  induction p generalizing P s with
  | ret a => exact ⟨fun _ he => absurd he List.not_mem_nil, hI, refl_of G s⟩
  | fail e => exact ⟨fun _ he => absurd he List.not_mem_nil, hI, refl_of G s⟩
  | act l f k ih =>
    obtain ⟨M, hf, hk⟩ := h
    obtain ⟨hr, hM⟩ := hf s hI hP
    obtain ⟨hI', hG⟩ := hstep l s _ hI hr
    rw [Prog.transitions]
    cases hfs : f s with
    | ok b s₁ =>
      rw [hfs] at hr hI' hG
      rw [run_act_ok hfs]
      obtain ⟨hrest, hend, hG'⟩ := ih b (hk b).2 hI' (hM b s₁ hfs)
      refine ⟨fun e he => ?_, hend, trans_of G hG hG'⟩
      rcases List.mem_cons.mp he with rfl | he
      · exact ⟨hI, hr, hI', hG'⟩
      · exact hrest e he
    | error e s₁ =>
      rw [hfs] at hr hI' hG
      rw [run_act_error hfs]
      refine ⟨fun e he => ?_, hI', hG⟩
      obtain rfl := List.mem_singleton.mp he
      exact ⟨hI, hr, hI', refl_of G s₁⟩

end Prog

namespace Pool
variable {ι ℓ ε σ α : Type} [DecidableEq ι] {guard : ι → ℓ → Conf ι ℓ σ → Prop} {env : σ → σ → Prop} {G : σ → σ → Prop}
  {R : ℓ → σ → σ → Prop} {I : σ → Prop} {J : Conf ι ℓ σ → Prop} {Q : ι → α → σ → Prop}

/-- What each thread will do has the effects that its labels allow. -/
def Moving (G : σ → σ → Prop) (R : ℓ → σ → σ → Prop) (I : σ → Prop) (Q : ι → α → σ → Prop) (x : Pool ι ℓ ε σ α) : Prop :=
  ∀ i, ∃ P, Prog.Persists G P ∧ P x.conf.state ∧ (x.threads i).Moves G R I P (Q i)

/-- An invariant that the effects of steps that meet `guard`, and the surroundings, keep. -/
theorem invariant (hI : ∀ x, J x → I x.state)
    (hstep : ∀ i l x s', J x → guard i l x → R l x.state s' → J (x.after i l s') ∧ G x.state s')
    (henv : ∀ x s', J x → env x.state s' → J { x with state := s' } ∧ G x.state s') {x y : Pool ι ℓ ε σ α}
    (hx : Moving G R I Q x) (hJ : J x.conf) (h : Runs guard env x y) : J y.conf ∧ Moving G R I Q y := by
  induction h with
  | refl => exact ⟨hJ, hx⟩
  | tail _ hs ih =>
    obtain ⟨hJ, hx⟩ := ih
    cases hs with
    | @thread i l p s' hp hg =>
      obtain ⟨P, -, hP, hmoves⟩ := hx i
      obtain ⟨hr, P', hpers', hP', hmoves'⟩ := hmoves.step (hI _ hJ) hP hp
      obtain ⟨hJ', hG⟩ := hstep i l _ s' hJ hg hr
      refine ⟨hJ', fun j => ?_⟩
      by_cases hj : j = i
      · subst hj
        refine ⟨P', hpers', hP', ?_⟩
        simpa using hmoves'
      · obtain ⟨Pj, hpersj, hPj, hmovesj⟩ := hx j
        refine ⟨Pj, hpersj, hpersj _ _ hG hPj, ?_⟩
        simpa [Function.update_of_ne hj] using hmovesj
    | env he =>
      obtain ⟨hJ', hG⟩ := henv _ _ hJ he
      refine ⟨hJ', fun j => ?_⟩
      obtain ⟨P, hpers, hP, hmoves⟩ := hx j
      exact ⟨P, hpers, hpers _ _ hG hP, hmoves⟩

end Pool

end Lib
