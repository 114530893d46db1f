import Catfs.Lib.Prog
import Mathlib.Logic.Function.Basic
import Mathlib.Logic.Relation
import Mathlib.Tactic.Choose

/-! # Programs that run at the same time

Threads share one state and take their steps in any order; between two steps the surroundings may change the
state. What was done so far is recorded, each step with the state it was taken in, so that a condition on steps
may speak of it. `Sat` is a rely-guarantee judgement of one thread, and `Pool.sound` puts the threads together. -/

namespace Lib

open EStateM (Result)
open Relation

variable {ι ℓ ε σ α β : Type}

/-- What a program returned, if it has. -/
def Prog.value : Prog ℓ ε σ α → Option α
  | .ret a => some a
  | _ => none

theorem Prog.of_value_eq {p : Prog ℓ ε σ α} {a : α} (h : p.value = some a) : p = .ret a := by
  cases p with
  | ret a => exact congrArg Prog.ret (Option.some.inj h)
  | fail e => cases h
  | act l f k => cases h

theorem Prog.of_value {p : Prog ℓ ε σ α} (h : p.value.isSome = true) : ∃ a, p = .ret a :=
  (Option.isSome_iff_exists.mp h).imp fun _ => of_value_eq

/-- A shared state, and the steps that led to it. -/
structure Conf (ι ℓ σ : Type) where
  past : List (ι × ℓ × σ)
  state : σ

namespace Conf

/-- Thread `i` took a step `l` that ended in `s'`. -/
def after (x : Conf ι ℓ σ) (i : ι) (l : ℓ) (s' : σ) : Conf ι ℓ σ := { past := x.past ++ [(i, l, x.state)], state := s' }

end Conf

/-- Threads and what they share. -/
structure Pool (ι ℓ ε σ α : Type) where
  threads : ι → Prog ℓ ε σ α
  conf : Conf ι ℓ σ

namespace Pool
variable [DecidableEq ι]

def start (threads : ι → Prog ℓ ε σ α) (s : σ) : Pool ι ℓ ε σ α := { threads, conf := { past := [], state := s } }

/-- One step of a thread, which meets `guard`, or a change of the surroundings. -/
inductive Step (guard : ι → ℓ → Conf ι ℓ σ → Prop) (env : σ → σ → Prop) : Pool ι ℓ ε σ α → Pool ι ℓ ε σ α → Prop where
  | thread {x : Pool ι ℓ ε σ α} {i : ι} {l : ℓ} {p : Prog ℓ ε σ α} {s' : σ}
      (h : (x.threads i).step x.conf.state = some (l, p, s')) (hg : guard i l x.conf) :
      Step guard env x { threads := Function.update x.threads i p, conf := x.conf.after i l s' }
  | env {x : Pool ι ℓ ε σ α} {s' : σ} (h : env x.conf.state s') :
      Step guard env x { x with conf := { x.conf with state := s' } }

/-- Every run whose steps all meet `guard`. -/
abbrev Runs (guard : ι → ℓ → Conf ι ℓ σ → Prop) (env : σ → σ → Prop) :
    Pool ι ℓ ε σ α → Pool ι ℓ ε σ α → Prop := ReflTransGen (Step guard env)

/-- Surroundings that may do more. -/
theorem runs_weaken {guard : ι → ℓ → Conf ι ℓ σ → Prop} {env env' : σ → σ → Prop} (henv : ∀ s s', env s s' → env' s s')
    {x y : Pool ι ℓ ε σ α} (h : Runs guard env x y) : Runs guard env' x y := by
  induction h with
  | refl => exact .refl
  | tail _ hs ih =>
    refine ih.tail ?_
    cases hs with
    | thread hp hg => exact .thread hp hg
    | env he => exact .env (henv _ _ he)

/-- Steps that had a guard are steps. -/
theorem runs_unguarded {guard : ι → ℓ → Conf ι ℓ σ → Prop} {env : σ → σ → Prop} {x y : Pool ι ℓ ε σ α}
    (h : Runs guard env x y) : Runs (fun _ _ _ => True) env x y := by
  induction h with
  | refl => exact .refl
  | tail _ hs ih =>
    refine ih.tail ?_
    cases hs with
    | thread hp _ => exact .thread hp trivial
    | env he => exact .env he

/-- The pool after a step of thread `i`, none when it has no step left or may not take it. -/
def next (ok : ι → ℓ → Conf ι ℓ σ → Bool) (x : Pool ι ℓ ε σ α) (i : ι) : Option (Pool ι ℓ ε σ α) :=
  match (x.threads i).step x.conf.state with
  | none => none
  | some (l, p, s') =>
    if ok i l x.conf then some { threads := Function.update x.threads i p, conf := x.conf.after i l s' } else none

/-- The threads take their steps in the order `is`. -/
def exec (ok : ι → ℓ → Conf ι ℓ σ → Bool) : Pool ι ℓ ε σ α → List ι → Option (Pool ι ℓ ε σ α)
  | x, [] => some x
  | x, i :: is =>
    match x.next ok i with
    | none => none
    | some y => y.exec ok is

theorem runs_exec {guard : ι → ℓ → Conf ι ℓ σ → Prop} {ok : ι → ℓ → Conf ι ℓ σ → Bool}
    (hok : ∀ i l x, ok i l x = true → guard i l x) {env : σ → σ → Prop} {x y : Pool ι ℓ ε σ α} {is : List ι}
    (h : x.exec ok is = some y) : Runs guard env x y := by
  induction is generalizing x with
  | nil =>
    cases h
    exact .refl
  | cons i is ih =>
    rw [exec] at h
    split at h
    · cases h
    · rename_i z hz
      refine .head ?_ (ih h)
      rw [next] at hz
      split at hz
      · cases hz
      · rename_i l p s' hs
        split at hz
        · rename_i hg
          cases hz
          exact .thread hs (hok i l x.conf hg)
        · cases hz

end Pool

/-! ### One thread -/

/-- What the other threads may do keeps `P`. -/
def Stable (rely : Conf ι ℓ σ → Conf ι ℓ σ → Prop) (P : Conf ι ℓ σ → Prop) : Prop := ∀ x y, rely x y → P x → P y

namespace Prog

/-- A step of thread `i` that leads to `y` keeps what each other thread relies on. -/
def Guarantees (rely : ι → Conf ι ℓ σ → Conf ι ℓ σ → Prop) (i : ι) (x y : Conf ι ℓ σ) : Prop := ∀ j, j ≠ i → rely j x y

/-- Run as thread `i` from a configuration with `P`, among threads that move along `rely i`, and taking only
    steps that meet `guard`, the program keeps what the others rely on and returns only values with `Q`. -/
def Sat (guard : ι → ℓ → Conf ι ℓ σ → Prop) (rely : ι → Conf ι ℓ σ → Conf ι ℓ σ → Prop) (i : ι) :
    Prog ℓ ε σ α → (Conf ι ℓ σ → Prop) → (α → Conf ι ℓ σ → Prop) → Prop
  | ret a, P, Q => ∀ x, P x → Q a x
  | fail _, _, _ => True
  | act l f k, P, Q => ∃ M : _ → Conf ι ℓ σ → Prop,
      (∀ x, P x → guard i l x → match f x.state with
        | .ok b s' => M b (x.after i l s') ∧ Guarantees rely i x (x.after i l s')
        | .error _ s' => Guarantees rely i x (x.after i l s')) ∧
      ∀ b, Stable (rely i) (M b) ∧ (k b).Sat guard rely i (M b) Q

variable {guard : ι → ℓ → Conf ι ℓ σ → Prop} {rely : ι → Conf ι ℓ σ → Conf ι ℓ σ → Prop} {i : ι}
  {P P' : Conf ι ℓ σ → Prop} {Q : α → Conf ι ℓ σ → Prop}

theorem Sat.pre {p : Prog ℓ ε σ α} (h : p.Sat guard rely i P' Q) (hP : ∀ x, P x → P' x) : p.Sat guard rely i P Q := by
  cases p with
  | ret a => exact fun x hx => h x (hP x hx)
  | fail e => trivial
  | act l f k =>
    obtain ⟨M, hf, hk⟩ := h
    exact ⟨M, fun x hx => hf x (hP x hx), hk⟩

theorem sat_false {p : Prog ℓ ε σ α} : p.Sat guard rely i (fun _ => False) Q := by
  induction p with
  | ret a => exact fun _ hx => hx.elim
  | fail e => trivial
  | act l f k ih => exact ⟨fun _ _ => False, fun _ hx => hx.elim, fun b => ⟨fun _ _ _ hx => hx, ih b⟩⟩

theorem Sat.post {Q' : α → Conf ι ℓ σ → Prop} {p : Prog ℓ ε σ α} (h : p.Sat guard rely i P Q)
    (hQ : ∀ a x, Q a x → Q' a x) : p.Sat guard rely i P Q' := by
  induction p generalizing P with
  | ret a => exact fun x hx => hQ a x (h x hx)
  | fail e => trivial
  | act l f k ih =>
    obtain ⟨M, hf, hk⟩ := h
    exact ⟨M, hf, fun b => ⟨(hk b).1, ih b (hk b).2⟩⟩

/-- A fact that does not depend on the configuration. -/
theorem Sat.of_fact {p : Prog ℓ ε σ α} {φ : Prop} (h : φ → p.Sat guard rely i P Q) :
    p.Sat guard rely i (fun x => φ ∧ P x) Q := by
  by_cases hφ : φ
  · exact (h hφ).pre fun _ hx => hx.2
  · exact sat_false.pre fun _ hx => hφ hx.1

/-- One of several facts. -/
theorem Sat.of_exists {γ : Type} {p : Prog ℓ ε σ α} {P : γ → Conf ι ℓ σ → Prop} (h : ∀ c, p.Sat guard rely i (P c) Q) :
    p.Sat guard rely i (fun x => ∃ c, P c x) Q := by
  induction p generalizing P with
  | ret a =>
    rintro x ⟨c, hc⟩
    exact h c x hc
  | fail e => trivial
  | act l f k ih =>
    choose M hf hk using h
    refine ⟨fun b x => ∃ c, M c b x, ?_, fun b => ⟨fun x y hr hx => hx.imp fun c => (hk c b).1 x y hr, ih b fun c => (hk c b).2⟩⟩
    rintro x ⟨c, hc⟩ hg
    have hstep := hf c x hc hg
    cases hfx : f x.state with
    | ok b s' =>
      rw [hfx] at hstep
      exact ⟨⟨c, hstep.1⟩, hstep.2⟩
    | error e s' =>
      rw [hfx] at hstep
      exact hstep

theorem sat_pure {a : α} (h : ∀ x, P x → Q a x) : (pure a : Prog ℓ ε σ α).Sat guard rely i P Q := h

theorem sat_lift {l : ℓ} {f : EStateM ε σ α} (hQ : ∀ a, Stable (rely i) (Q a))
    (h : ∀ x, P x → guard i l x → match f x.state with
      | .ok b s' => Q b (x.after i l s') ∧ Guarantees rely i x (x.after i l s')
      | .error _ s' => Guarantees rely i x (x.after i l s')) : (lift l f).Sat guard rely i P Q :=
  ⟨Q, h, fun a => ⟨hQ a, fun _ hx => hx⟩⟩

/-- A thread without others has only its surroundings to think of. -/
theorem sat_alone [Subsingleton ι] {l : ℓ} {f : EStateM ε σ α} (hQ : ∀ a, Stable (rely i) (Q a))
    (h : ∀ x, P x → guard i l x → ∀ a s', f x.state = .ok a s' → Q a (x.after i l s')) : (lift l f).Sat guard rely i P Q := by
  have hguarantees : ∀ x y, Guarantees rely i x y := fun _ _ j hj => absurd (Subsingleton.elim j i) hj
  refine sat_lift hQ fun x hx hg => ?_
  cases hr : f x.state with
  | ok a s' => exact ⟨h x hx hg a s' hr, hguarantees _ _⟩
  | error e s' => exact hguarantees _ _

theorem Sat.bind {p : Prog ℓ ε σ β} {g : β → Prog ℓ ε σ α} {M : β → Conf ι ℓ σ → Prop} (hp : p.Sat guard rely i P M)
    (hg : ∀ b, (g b).Sat guard rely i (M b) Q) : (p >>= g).Sat guard rely i P Q := by
  show (p.bind g).Sat guard rely i P Q
  induction p generalizing P with
  | ret b => exact (hg b).pre hp
  | fail e => trivial
  | act l f k ih =>
    obtain ⟨N, hf, hk⟩ := hp
    exact ⟨N, hf, fun b => ⟨(hk b).1, ih b (hk b).2⟩⟩

theorem Sat.map {p : Prog ℓ ε σ β} {f : β → α} (hp : p.Sat guard rely i P fun b => Q (f b)) :
    (f <$> p).Sat guard rely i P Q := hp.bind fun _ _ hx => hx

/-- What no step undoes is carried along. -/
theorem Sat.frame {p : Prog ℓ ε σ α} {F : Conf ι ℓ σ → Prop} (h : p.Sat guard rely i P Q)
    (hF : ∀ x l s, F x → F (x.after i l s)) (hstable : Stable (rely i) F) :
    p.Sat guard rely i (fun x => P x ∧ F x) fun a x => Q a x ∧ F x := by
  induction p generalizing P with
  | ret a => exact fun x hx => ⟨h x hx.1, hx.2⟩
  | fail e => trivial
  | act l f k ih =>
    obtain ⟨M, hf, hk⟩ := h
    refine ⟨fun b x => M b x ∧ F x, fun x hx hg => ?_, fun b => ⟨fun x y hr hx => ?_, ih b (hk b).2⟩⟩
    · have := hf x hx.1 hg
      cases hfx : f x.state with
      | ok b s' =>
        simp only [hfx] at this ⊢
        exact ⟨⟨this.1, hF x l s' hx.2⟩, this.2⟩
      | error e s' =>
        simp only [hfx] at this ⊢
        exact this
    · exact ⟨(hk b).1 x y hr hx.1, hstable x y hr hx.2⟩

theorem Sat.returns {p : Prog ℓ ε σ α} {R : α → Prop} (h : p.Sat guard rely i P Q) (hR : p.Returns R) :
    p.Sat guard rely i P fun a x => R a ∧ Q a x := by
  induction p generalizing P with
  | ret a => exact fun x hx => ⟨hR, h x hx⟩
  | fail e => trivial
  | act l f k ih =>
    obtain ⟨M, hf, hk⟩ := h
    exact ⟨M, hf, fun b => ⟨(hk b).1, ih b (hk b).2 (hR b)⟩⟩

/-- A program all of whose steps keep `B`. -/
theorem sat_of_preserves {p : Prog ℓ ε σ α} {A : ℓ → Prop} {I : σ → Prop} {R : σ → σ → Prop} {B : Conf ι ℓ σ → Prop}
    (hp : p.Preserves A I R) (hI : ∀ x, B x → I x.state) (hstable : Stable (rely i) B)
    (hstep : ∀ x l s, B x → A l → I s → R x.state s → B (x.after i l s) ∧ Guarantees rely i x (x.after i l s)) :
    p.Sat guard rely i B fun _ => B := by
  induction p with
  | ret a => exact fun _ hx => hx
  | fail e => trivial
  | act l f k ih =>
    obtain ⟨hl, hf, hk⟩ := hp
    refine ⟨fun _ => B, fun x hx _ => ?_, fun b => ⟨hstable, ih b (hk b)⟩⟩
    have := hf x.state (hI x hx) trivial
    cases hfx : f x.state with
    | ok b s' =>
      simp only [hfx] at this ⊢
      exact hstep x l s' hx hl this.1 this.2.1
    | error e s' =>
      simp only [hfx] at this ⊢
      exact (hstep x l s' hx hl this.1 this.2).2

/-- One step of a thread. -/
theorem Sat.step {p p' : Prog ℓ ε σ α} {x : Conf ι ℓ σ} {l : ℓ} {s' : σ} (h : p.Sat guard rely i P Q) (hP : P x)
    (hs : p.step x.state = some (l, p', s')) (hg : guard i l x) :
    Guarantees rely i x (x.after i l s') ∧
      ∃ P', Stable (rely i) P' ∧ P' (x.after i l s') ∧ p'.Sat guard rely i P' Q := by
  cases p with
  | ret a => cases hs
  | fail e => cases hs
  | act l' f k =>
    obtain ⟨M, hf, hk⟩ := h
    simp only [Prog.step, Option.some.injEq, Prod.mk.injEq] at hs
    obtain ⟨rfl, hs⟩ := hs
    have := hf x hP hg
    cases hr : f x.state with
    | ok b s₁ =>
      simp only [hr] at hs this
      obtain ⟨rfl, rfl⟩ := hs
      exact ⟨this.2, M b, (hk b).1, this.1, (hk b).2⟩
    | error e s₁ =>
      simp only [hr] at hs this
      obtain ⟨rfl, rfl⟩ := hs
      exact ⟨this, fun y => True, fun _ _ _ _ => trivial, trivial, trivial⟩

end Prog

/-! ### The threads together -/

namespace Pool
variable [DecidableEq ι] {guard : ι → ℓ → Conf ι ℓ σ → Prop} {rely : ι → Conf ι ℓ σ → Conf ι ℓ σ → Prop}
  {env : σ → σ → Prop} {Q : ι → α → Conf ι ℓ σ → Prop}

/-- What each thread will do is as it should be. -/
def Good (guard : ι → ℓ → Conf ι ℓ σ → Prop) (rely : ι → Conf ι ℓ σ → Conf ι ℓ σ → Prop)
    (Q : ι → α → Conf ι ℓ σ → Prop) (x : Pool ι ℓ ε σ α) : Prop :=
  ∀ i, ∃ P, Stable (rely i) P ∧ P x.conf ∧ (x.threads i).Sat guard rely i P (Q i)

theorem Good.step {x y : Pool ι ℓ ε σ α} (henv : ∀ i x s', env x.state s' → rely i x { x with state := s' })
    (hx : Good guard rely Q x) (h : Step guard env x y) : Good guard rely Q y := by
  cases h with
  | @thread i l p s' hs hg =>
    intro j
    obtain ⟨P, hstable, hP, hsat⟩ := hx i
    obtain ⟨hguar, P', hstable', hP', hsat'⟩ := hsat.step hP hs hg
    by_cases hj : j = i
    · subst hj
      refine ⟨P', hstable', hP', ?_⟩
      simpa using hsat'
    · obtain ⟨Pj, hstablej, hPj, hsatj⟩ := hx j
      refine ⟨Pj, hstablej, hstablej _ _ (hguar j hj) hPj, ?_⟩
      simpa [Function.update_of_ne hj] using hsatj
  | env h =>
    intro j
    obtain ⟨P, hstable, hP, hsat⟩ := hx j
    exact ⟨P, hstable, hstable _ _ (henv j _ _ h) hP, hsat⟩

/-- Whatever the order of the steps, a thread that returned has its postcondition. -/
theorem sound {x y : Pool ι ℓ ε σ α} (henv : ∀ i x s', env x.state s' → rely i x { x with state := s' })
    (hx : Good guard rely Q x) (h : Runs guard env x y) {i : ι} {a : α} (hret : y.threads i = .ret a) : Q i a y.conf := by
  have hy : Good guard rely Q y := by
    clear hret
    induction h with
    | refl => exact hx
    | tail _ hs ih => exact ih.step henv hs
  obtain ⟨P, -, hP, hsat⟩ := hy i
  rw [hret] at hsat
  exact hsat _ hP

end Pool

end Lib
