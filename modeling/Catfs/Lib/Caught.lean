import Catfs.Lib.Watch

/-! # What a thread throws

`caught` turns what a program throws into a value that it returns, step for step. So the judgement on what the threads of
a pool return says what they throw as well (`Tries`, `Pool.thrown`). -/

namespace Lib

open EStateM (Result)
open Relation

variable {ι ℓ ε σ α β : Type}

/-- A step that returns what it throws. -/
def attempt (f : EStateM ε σ α) : EStateM ε σ (Except ε α) := fun s =>
  match f s with
  | .ok a s' => .ok (.ok a) s'
  | .error e s' => .ok (.error e) s'

theorem attempt_ok {f : EStateM ε σ α} {a : α} {s s' : σ} (h : f s = .ok a s') : attempt f s = .ok (.ok a) s' := by
  simp only [attempt, h]

theorem attempt_error {f : EStateM ε σ α} {e : ε} {s s' : σ} (h : f s = .error e s') : attempt f s = .ok (.error e) s' := by
  simp only [attempt, h]

theorem endState_attempt {f : EStateM ε σ α} {s : σ} : endState (attempt f s) = endState (f s) := by
  cases h : f s with
  | ok a s' => rw [attempt_ok h, endState_ok, endState_ok]
  | error e s' => rw [attempt_error h, endState_ok, endState_error]

namespace Prog

/-- What a program threw, if it has. -/
def raised : Prog ℓ ε σ α → Option ε
  | fail e => some e
  | _ => none

theorem of_raised {p : Prog ℓ ε σ α} {e : ε} (h : p.raised = some e) : p = .fail e := by
  cases p with
  | fail e' => exact congrArg Prog.fail (Option.some.inj h)
  | ret a => cases h
  | act l f k => cases h

/-- Go on with a value, and end with what was thrown. -/
def orReturn (g : α → Prog ℓ ε σ (Except ε β)) : Except ε α → Prog ℓ ε σ (Except ε β)
  | .ok a => g a
  | .error e => ret (.error e)

/-- The program, returning what it throws. -/
def caught : Prog ℓ ε σ α → Prog ℓ ε σ (Except ε α)
  | ret a => ret (.ok a)
  | fail e => ret (.error e)
  | act l f k => act l (attempt f) (orReturn fun b => (k b).caught)

variable {p p' : Prog ℓ ε σ α} {g : α → Prog ℓ ε σ β} {s s' : σ} {l : ℓ}

theorem caught_bind : (p >>= g).caught = p.caught >>= orReturn fun a => (g a).caught := by
  show (p.bind g).caught = p.caught.bind (orReturn fun a => (g a).caught)
  induction p with
  | ret a => rfl
  | fail e => rfl
  | act l f k ih =>
    simp only [bind, caught, act.injEq, heq_eq_eq, true_and]
    funext r
    cases r with
    | ok b => exact ih b
    | error e => rfl

/-- The steps are the same. -/
theorem caught_step (h : p.step s = some (l, p', s')) : p.caught.step s = some (l, p'.caught, s') := by
  cases p with
  | ret a => cases h
  | fail e => cases h
  | act l' f k =>
    simp only [step, Option.some.injEq, Prod.mk.injEq] at h
    obtain ⟨rfl, h⟩ := h
    cases hf : f s with
    | ok b s₁ =>
      rw [hf] at h
      obtain ⟨rfl, rfl⟩ := Prod.mk.inj h
      simp only [caught, step, attempt_ok hf, orReturn]
    | error e s₁ =>
      rw [hf] at h
      obtain ⟨rfl, rfl⟩ := Prod.mk.inj h
      simp only [caught, step, attempt_error hf, orReturn]

variable [DecidableEq ι] {I : σ → Prop} {R : σ → σ → Prop} {i : ι} {P P' : List (ℓ × σ) → σ → Prop}
  {Q Q' : α → List (ℓ × σ) → σ → Prop} {E : ε → List (ℓ × σ) → Prop}

/-- What holds when a program ends: `Q` of what it returned, `E` of what it threw. -/
def Ended (Q : α → List (ℓ × σ) → σ → Prop) (E : ε → List (ℓ × σ) → Prop) (r : Except ε α) (hist : List (ℓ × σ)) (s : σ) :
    Prop :=
  match r with
  | .ok a => Q a hist s
  | .error e => E e hist

/-- The thread `i` among threads that keep `I` and move along `R`: it does so too, returns only with `Q` and throws only
    with `E`. -/
abbrev Tries (I : σ → Prop) (R : σ → σ → Prop) (i : ι) (P : List (ℓ × σ) → σ → Prop) (p : Prog ℓ ε σ α)
    (Q : α → List (ℓ × σ) → σ → Prop) (E : ε → List (ℓ × σ) → Prop) : Prop :=
  p.caught.Heeds I R (fun _ _ _ _ => True) i P (Ended Q E)

theorem tries_pure {a : α} (h : ∀ hist s, I s → P hist s → Q a hist s) : Tries I R i P (pure a : Prog ℓ ε σ α) Q E :=
  sat_pure fun _ hx => ⟨hx.1, h _ _ hx.1 hx.2⟩

theorem tries_fail {e : ε} (h : ∀ hist s, I s → P hist s → E e hist) : Tries I R i P (fail e : Prog ℓ ε σ α) Q E :=
  sat_pure fun _ hx => ⟨hx.1, h _ _ hx.1 hx.2⟩

theorem tries_lift {f : EStateM ε σ α} (hQ : ∀ a hist, Persists R (Q a hist))
    (h : ∀ hist s, I s → P hist s → (I (endState (f s)) ∧ R s (endState (f s))) ∧ match f s with
      | .ok a s' => Q a (hist ++ [(l, s)]) s'
      | .error e _ => E e (hist ++ [(l, s)])) : Tries I R i P (lift l f) Q E := by
  have hended : ∀ (r : Except ε α) hist, Persists R (Ended (ℓ := ℓ) Q E r hist) := by
    intro r hist
    cases r with
    | ok a => exact hQ a hist
    | error e => exact fun _ _ _ he => he
  have hcaught : (lift l f).caught = lift l (attempt f) >>= orReturn fun a => ret (.ok a) := rfl
  rw [Tries, hcaught]
  refine Sat.bind (heeds_lift hended fun hist s hI hs => ?_) fun r => ?_
  · obtain ⟨hR, hf⟩ := h hist s hI hs
    rw [endState_attempt]
    refine ⟨trivial, hR, fun r s' hr => ?_⟩
    cases hfs : f s with
    | ok a s₁ =>
      rw [hfs] at hf
      rw [attempt_ok hfs] at hr
      obtain ⟨rfl, rfl⟩ := Result.ok.inj hr
      exact hf
    | error e s₁ =>
      rw [hfs] at hf
      rw [attempt_error hfs] at hr
      obtain ⟨rfl, rfl⟩ := Result.ok.inj hr
      exact hf
  · cases r with
    | ok a => exact sat_pure fun _ hx => hx
    | error e => exact sat_pure fun _ hx => hx

theorem Tries.bind {q : Prog ℓ ε σ β} {h : β → Prog ℓ ε σ α} {M : β → List (ℓ × σ) → σ → Prop} (hq : Tries I R i P q M E)
    (hh : ∀ b, Tries I R i (M b) (h b) Q E) : Tries I R i P (q >>= h) Q E := by
  rw [Tries, caught_bind]
  refine Sat.bind hq fun r => ?_
  cases r with
  | ok b => exact hh b
  | error e => exact sat_pure fun _ hx => hx

theorem Tries.map {q : Prog ℓ ε σ β} {h : β → α} (hq : Tries I R i P q (fun b => Q (h b)) E) : Tries I R i P (h <$> q) Q E :=
  hq.bind fun _ => tries_pure fun _ _ _ hs => hs

theorem Tries.pre (h : Tries I R i P' p Q E) (hP : ∀ hist s, I s → P hist s → P' hist s) : Tries I R i P p Q E :=
  Sat.pre h fun _ hx => ⟨hx.1, hP _ _ hx.1 hx.2⟩

theorem Tries.post (h : Tries I R i P p Q E) (hQ : ∀ a hist s, I s → Q a hist s → Q' a hist s) : Tries I R i P p Q' E := by
  refine Sat.post h fun r x hx => ⟨hx.1, ?_⟩
  cases r with
  | ok a => exact hQ a _ _ hx.1 hx.2
  | error e => exact hx.2

theorem Tries.ite {c : Prop} [Decidable c] {q : Prog ℓ ε σ α} (hp : Tries I R i P p Q E) (hq : Tries I R i P q Q E) :
    Tries I R i P (if c then p else q) Q E := by
  split
  · exact hp
  · exact hq

/-- A fact that does not depend on the state. -/
theorem tries_fact {φ : Prop} (h : φ → Tries I R i P p Q E) : Tries I R i (fun hist s => φ ∧ P hist s) p Q E :=
  (Sat.of_fact h).pre fun _ hx => ⟨hx.2.1, hx.1, hx.2.2⟩

/-- One of several facts. -/
theorem tries_exists {γ : Type} {P : γ → List (ℓ × σ) → σ → Prop} (h : ∀ c, Tries I R i (P c) p Q E) :
    Tries I R i (fun hist s => ∃ c, P c hist s) p Q E :=
  (Sat.of_exists h).pre fun _ hx => hx.2.imp fun _ hc => ⟨hx.1, hc⟩

end Prog

namespace Pool

/-- The pool, with threads that return what they throw. -/
def caught (x : Pool ι ℓ ε σ α) : Pool ι ℓ ε σ (Except ε α) where
  threads i := (x.threads i).caught
  conf := x.conf

variable [DecidableEq ι] {guard : ι → ℓ → Conf ι ℓ σ → Prop} {env : σ → σ → Prop} {x y : Pool ι ℓ ε σ α}

theorem runs_caught (h : Runs guard env x y) : Runs guard env x.caught y.caught := by
  induction h with
  | refl => exact .refl
  | @tail z _ _ hs ih =>
    refine ih.tail ?_
    cases hs with
    | env he => exact .env he
    | @thread i l p s' hp hg =>
      have hnext : Step guard env z.caught _ := .thread (Prog.caught_step hp) hg
      have hthreads : Function.update z.caught.threads i p.caught = fun j => (Function.update z.threads i p j).caught := by
        funext j
        by_cases hj : j = i
        · rw [hj, Function.update_self, Function.update_self]
        · rw [Function.update_of_ne hj, Function.update_of_ne hj, caught]
      rw [hthreads] at hnext
      exact hnext

variable {I : σ → Prop} {R : σ → σ → Prop} {threads : ι → Prog ℓ ε σ α} {s : σ} {Q : ι → α → List (ℓ × σ) → σ → Prop}
  {E : ι → ε → List (ℓ × σ) → Prop}

/-- What a thread has thrown, whatever the order of the steps. -/
theorem thrown (henv : ∀ s s', env s s' → I s → I s' ∧ R s s')
    (hthreads : ∀ i, Prog.Tries I R i (fun hist _ => hist = []) (threads i) (Q i) (E i)) (hs : I s)
    (h : Runs (fun _ _ _ => True) env (.start threads s) y) {i : ι} {e : ε} (hi : y.threads i = .fail e) :
    E i e (own i y.conf.past) := by
  have hgood : Good (fun _ _ _ => True) (Watch I R fun _ _ _ _ => True)
      (fun j r x => ∀ k, j = some k → Prog.Ended (Q k) (E k) r (own (some k) x.past) x.state)
      ((Pool.start threads s).caught.watched (.error e)) := by
    intro j
    cases j with
    | none => exact ⟨fun _ => True, fun _ _ _ _ => trivial, trivial, fun _ _ k hk => by cases hk⟩
    | some j =>
      refine ⟨_, Prog.stable_mine fun _ _ _ _ h => h, ⟨hs, rfl⟩, Prog.Sat.post (hthreads j) fun r x hx k hk => ?_⟩
      obtain rfl := Option.some.inj hk
      exact hx.2
  have henv' : ∀ (j : Option ι) (x : Conf (Option ι) ℓ σ) s', env x.state s' →
      Watch I R (fun _ _ _ _ => True) j x { x with state := s' } := by
    intro j x s' he
    cases j with
    | none => exact id
    | some j => exact ⟨rfl, henv _ _ he⟩
  have hret : ((y.caught).watched (.error e)).threads (some i) = .ret (.error e) := by
    show (y.threads i).caught = _
    rw [hi]
    rfl
  have hended := sound henv' hgood (runs_watched (runs_caught h)) hret i rfl
  rwa [watched, own_watched] at hended

end Pool

end Lib
