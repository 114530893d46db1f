import Catfs.Lib.Moves

/-! # What a thread did before a step

A condition on each step of a run may look at what its thread did before (`Each`). A thread that takes no steps joins the
pool and relies on that condition alone, so that the others have to keep it. -/

namespace Lib

open EStateM (Result)
open Relation

variable {ι ℓ ε σ α β : Type} [DecidableEq ι]

/-- The steps of thread `i`. -/
def own (i : ι) (past : List (ι × ℓ × σ)) : List (ℓ × σ) := (past.filter (·.1 = i)).map Prod.snd

/-- Each step met `G`, after what its thread did before. -/
def Each (G : ι → List (ℓ × σ) → ℓ → σ → Prop) (past : List (ι × ℓ × σ)) : Prop :=
  ∀ before i l s after, past = before ++ (i, l, s) :: after → G i (own i before) l s

section
variable {past : List (ι × ℓ × σ)} {hist : List (ℓ × σ)} {i j : ι} {l : ℓ} {s : σ} {G : ι → List (ℓ × σ) → ℓ → σ → Prop}

theorem own_self : own i (past ++ [(i, l, s)]) = own i past ++ [(l, s)] := by simp [own]

theorem own_other (h : j ≠ i) : own j (past ++ [(i, l, s)]) = own j past := by simp [own, Ne.symm h]

/-- The steps of a thread stand in the record in their order. -/
theorem sublist_of_own (h : hist.Sublist (own i past)) : (hist.map (Prod.mk i)).Sublist past := by
  have hback : (own i past).map (Prod.mk i) = past.filter (·.1 = i) := by
    rw [own, List.map_map]
    refine (List.map_congr_left fun e he => ?_).trans (List.map_id _)
    have hi : e.1 = i := of_decide_eq_true (List.mem_filter.mp he).2
    rw [Function.comp_apply, ← hi, id_eq]
  have hsub := h.map (Prod.mk i)
  rw [hback] at hsub
  exact hsub.trans List.filter_sublist

theorem each_nil : Each G [] := fun before _ _ _ _ h => by simp at h

theorem Each.front {after : List (ι × ℓ × σ)} (h : Each G (past ++ after)) : Each G past := by
  intro before i l s rest heq
  refine h before i l s (rest ++ after) ?_
  rw [heq, List.append_assoc, List.cons_append]

theorem Each.last (h : Each G (past ++ [(i, l, s)])) : G i (own i past) l s := h past i l s [] rfl

theorem Each.step (h : Each G past) (hg : G i (own i past) l s) : Each G (past ++ [(i, l, s)]) := by
  rintro before j l' s' after heq
  rcases List.eq_nil_or_concat after with rfl | ⟨after', e, rfl⟩
  · obtain ⟨rfl, he⟩ := List.append_inj' heq rfl
    simp only [List.cons.injEq, Prod.mk.injEq, and_true] at he
    obtain ⟨rfl, rfl, rfl⟩ := he
    exact hg
  · rw [List.concat_eq_append, ← List.cons_append, ← List.append_assoc] at heq
    exact h before j l' s' after' (List.append_inj' heq rfl).1

end

/-- The labels of the steps are in `A`, whatever the steps return. -/
abbrev Prog.Labels (A : ℓ → Prop) (p : Prog ℓ ε σ α) : Prop := p.Preserves A (fun _ => True) fun _ _ => True

omit [DecidableEq ι] in
theorem Prog.labels_lift {A : ℓ → Prop} {l : ℓ} {f : EStateM ε σ α} (hl : A l) : (lift l f).Labels A := by
  refine preserves_lift hl fun s _ _ => ?_
  cases f s
  · exact ⟨trivial, trivial, trivial⟩
  · exact ⟨trivial, trivial⟩

omit [DecidableEq ι] in
theorem Prog.Preserves.labels {A : ℓ → Prop} {I : σ → Prop} {R : σ → σ → Prop} {p : Prog ℓ ε σ α} (h : p.Preserves A I R) :
    p.Labels A := by
  induction p with
  | ret a => trivial
  | fail e => trivial
  | act l f k ih => exact ⟨h.1, (labels_lift (f := f) h.1).2.1, fun b => ih b (h.2.2 b)⟩

/-! ### One thread -/

/-- Thread `j` relies on being alone in what it does, and on changes along `R` that keep `I`. The watcher relies on `G`. -/
def Watch (I : σ → Prop) (R : σ → σ → Prop) (G : ι → List (ℓ × σ) → ℓ → σ → Prop) :
    Option ι → Conf (Option ι) ℓ σ → Conf (Option ι) ℓ σ → Prop
  | some j, x, y => own (some j) y.past = own (some j) x.past ∧ (I x.state → I y.state ∧ R x.state y.state)
  | none, x, y => Each (fun k hist l s => ∀ j, k = some j → G j hist l s) x.past →
      Each (fun k hist l s => ∀ j, k = some j → G j hist l s) y.past

/-- The assertion `P` on what thread `i` did and on the state. -/
abbrev Mine (I : σ → Prop) (i : ι) (P : List (ℓ × σ) → σ → Prop) (x : Conf (Option ι) ℓ σ) : Prop :=
  I x.state ∧ P (own (some i) x.past) x.state

/-- The thread `i` of a watched pool: each of its steps meets `G`. -/
abbrev Prog.Heeds (I : σ → Prop) (R : σ → σ → Prop) (G : ι → List (ℓ × σ) → ℓ → σ → Prop) (i : ι) (P : List (ℓ × σ) → σ → Prop)
    (p : Prog ℓ ε σ α) (Q : α → List (ℓ × σ) → σ → Prop) : Prop :=
  p.Sat (fun _ _ _ => True) (Watch I R G) (some i) (Mine I i P) fun a => Mine I i (Q a)

namespace Prog
variable {I : σ → Prop} {R : σ → σ → Prop} {G : ι → List (ℓ × σ) → ℓ → σ → Prop} {i : ι} {P : List (ℓ × σ) → σ → Prop}

theorem stable_mine (hP : ∀ hist, Persists R (P hist)) : Stable (Watch I R G (some i)) (Mine I i P) := by
  rintro x y ⟨hown, hR⟩ ⟨hI, hx⟩
  obtain ⟨hI', hxy⟩ := hR hI
  refine ⟨hI', ?_⟩
  rw [hown]
  exact hP _ _ _ hxy hx

theorem guarantees_watch {x : Conf (Option ι) ℓ σ} {l : ℓ} {s' : σ} (hg : G i (own (some i) x.past) l x.state)
    (hR : I s' ∧ R x.state s') : Guarantees (Watch I R G) (some i) x (x.after (some i) l s') := by
  intro j hj
  cases j with
  | none => exact fun h => h.step fun k hk => Option.some.inj hk ▸ hg
  | some j => exact ⟨own_other hj, fun _ => hR⟩

theorem heeds_lift {l : ℓ} {f : EStateM ε σ α} {Q : α → List (ℓ × σ) → σ → Prop} (hQ : ∀ a hist, Persists R (Q a hist))
    (h : ∀ hist s, I s → P hist s → G i hist l s ∧ (I (endState (f s)) ∧ R s (endState (f s))) ∧
      ∀ a s', f s = .ok a s' → Q a (hist ++ [(l, s)]) s') : (lift l f).Heeds I R G i P Q := by
  refine sat_lift (fun a => stable_mine (hQ a)) fun x hx _ => ?_
  obtain ⟨hg, hR, hok⟩ := h _ _ hx.1 hx.2
  cases hf : f x.state with
  | ok a s' =>
    rw [hf] at hR
    refine ⟨⟨hR.1, ?_⟩, guarantees_watch hg hR⟩
    rw [Conf.after, own_self]
    exact hok a s' hf
  | error e s' =>
    rw [hf] at hR
    exact guarantees_watch hg hR

/-- What a thread does to the state, while the steps it takes have labels in `A` and carry `K` along. -/
theorem heeds_moves {A : ℓ → Prop} {S : ℓ → σ → σ → Prop} {T : σ → Prop} {Q : α → σ → Prop}
    {K : List (ℓ × σ) → σ → Prop} {p : Prog ℓ ε σ α} (hp : p.Moves R S I T Q) (hlabels : p.Labels A)
    (hS : ∀ l s s', I s → S l s s' → I s' ∧ R s s') (hG : ∀ hist l s, A l → K hist s → G i hist l s)
    (hK : ∀ hist l s s', A l → R s s' → K hist s → K (hist ++ [(l, s)]) s') (hlasts : ∀ hist, Persists R (K hist)) :
    p.Heeds I R G i (fun hist s => T s ∧ K hist s) fun a hist s => Q a s ∧ K hist s := by
  induction p generalizing T with
  | ret a => exact fun x hx => ⟨hx.1, hp _ hx.1 hx.2.1, hx.2.2⟩
  | fail e => trivial
  | act l f k ih =>
    obtain ⟨M, hf, hk⟩ := hp
    have hM : ∀ b hist, Persists R fun s => M b s ∧ K hist s := fun b hist s s' hR hs => ⟨(hk b).1 s s' hR hs.1, hlasts hist s s' hR hs.2⟩
    have hlift : (lift l f).Heeds I R G i (fun hist s => T s ∧ K hist s) fun b hist s => M b s ∧ K hist s := by
      refine heeds_lift hM fun hist s hI hs => ?_
      obtain ⟨hmove, hok⟩ := hf s hI hs.1
      have hR := hS l s _ hI hmove
      refine ⟨hG hist l s hlabels.1 hs.2, hR, fun b s' hb => ⟨hok b s' hb, ?_⟩⟩
      rw [hb] at hR
      exact hK hist l s s' hlabels.1 hR.2 hs.2
    exact Sat.bind hlift fun b => ih b (hk b).2 (hlabels.2.2 b)

end Prog

/-! ### The pool -/

namespace Pool

/-- The record of a pool, for one with a thread more. -/
def watchedPast (past : List (ι × ℓ × σ)) : List (Option ι × ℓ × σ) := past.map fun e => (some e.1, e.2)

/-- The pool with one more thread, which has returned `a`. -/
def watched (a : α) (x : Pool ι ℓ ε σ α) : Pool (Option ι) ℓ ε σ α where
  threads j := j.elim (.ret a) x.threads
  conf := { past := watchedPast x.conf.past, state := x.conf.state }

theorem own_watched {past : List (ι × ℓ × σ)} {i : ι} : own (some i) (watchedPast past) = own i past := by
  simp [own, watchedPast, List.filter_map, Function.comp_def]

variable {env : σ → σ → Prop} {x y : Pool ι ℓ ε σ α} {a : α}

theorem runs_watched (h : Runs (fun _ _ _ => True) env x y) : Runs (fun _ _ _ => True) env (x.watched a) (y.watched a) := by
  induction h with
  | refl => exact .refl
  | @tail z _ _ hs ih =>
    refine ih.tail ?_
    cases hs with
    | env he => exact .env he
    | @thread i l p s' hp hg =>
      have hstep : ((z.watched a).threads (some i)).step (z.watched a).conf.state = some (l, p, s') := hp
      have hnext : Step (fun _ _ _ => True) env _ _ := .thread hstep trivial
      have hthreads : Function.update (z.watched a).threads (some i) p = fun j => j.elim (.ret a) (Function.update z.threads i p) := by
        funext j
        cases j with
        | none => rw [Function.update_of_ne (by simp)]; rfl
        | some j =>
          by_cases hj : j = i
          · rw [hj, Function.update_self, Option.elim, Function.update_self]
          · rw [Function.update_of_ne (by simpa using hj), Option.elim, Function.update_of_ne hj]
            rfl
      have hpast : (z.watched a).conf.after (some i) l s' = { past := watchedPast (z.conf.after i l s').past, state := s' } := by
        simp [watched, watchedPast, Conf.after]
      rw [hthreads, hpast] at hnext
      exact hnext

variable {I : σ → Prop} {R : σ → σ → Prop} {G : ι → List (ℓ × σ) → ℓ → σ → Prop} {threads : ι → Prog ℓ ε σ α} {s : σ}

/-- Each step of every run meets `G`, when every thread sees to it for its own. -/
theorem each_of_heeds [Inhabited α] (henv : ∀ s s', env s s' → I s → I s' ∧ R s s')
    (hthreads : ∀ i, (threads i).Heeds I R G i (fun hist _ => hist = []) fun _ _ _ => True) (hs : I s)
    (h : Runs (fun _ _ _ => True) env (.start threads s) y) : Each G y.conf.past := by
  have hgood : Good (fun _ _ _ => True) (Watch I R G)
      (fun j _ x => j = none → Each (fun k hist l s => ∀ j, k = some j → G j hist l s) x.past)
      ((Pool.start threads s).watched default) := by
    intro j
    cases j with
    | none => exact ⟨fun x => Each _ x.past, fun _ _ hr hx => hr hx, each_nil, fun x hx _ => hx⟩
    | some j =>
      refine ⟨_, Prog.stable_mine fun _ _ _ _ h => h, ⟨hs, rfl⟩, (hthreads j).post fun _ _ _ hj => by cases hj⟩
  have henv' : ∀ (j : Option ι) (x : Conf (Option ι) ℓ σ) s', env x.state s' → Watch I R G j x { x with state := s' } := by
    intro j x s' he
    cases j with
    | none => exact id
    | some j => exact ⟨rfl, henv _ _ he⟩
  have heach := sound henv' hgood (runs_watched h) (i := none) rfl rfl
  rintro before i l s' after heq
  have hsplit : watchedPast y.conf.past = watchedPast before ++ (some i, l, s') :: watchedPast after := by
    rw [heq, watchedPast, List.map_append]
    rfl
  have hg := heach _ _ _ _ _ hsplit i rfl
  rwa [own_watched] at hg

end Pool

end Lib
