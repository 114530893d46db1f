import Mathlib.Data.List.Induction
import Mathlib.Data.Set.Finite.Basic

/-! # Trees of named entries

A tree is given by the children of its nodes. What it shows is a map from paths to what the nodes carry
(`paths`), and a change at one node changes that map at and below one path. -/

namespace Lib

universe u v w
variable {A : Type u} {ν : Type v} {α : Type w}

/-! ### Walks -/

/-- The node at the end of a path from `a`. -/
def walk (child : A → ν → Option A) : A → List ν → Option A
  | a, [] => some a
  | a, n :: ns => (child a n).bind fun c => walk child c ns

variable {child child' : A → ν → Option A} {attr attr' : A → α} {r a b p : A} {n : ν} {P Q : List ν}

@[simp] theorem walk_nil : walk child a [] = some a := rfl

theorem walk_append : walk child a (P ++ Q) = (walk child a P).bind fun b => walk child b Q := by
  induction P generalizing a with
  | nil => rfl
  | cons n P ih =>
    rw [List.cons_append, walk, walk]
    cases child a n with
    | none => rfl
    | some c => exact ih

theorem walk_concat : walk child a (P ++ [n]) = (walk child a P).bind fun b => child b n := by
  rw [walk_append]
  cases walk child a P with
  | none => rfl
  | some b =>
    simp only [Option.bind_some, walk]
    cases child b n <;> rfl

theorem walk_concat_some (h : walk child a (P ++ [n]) = some b) : ∃ c, walk child a P = some c ∧ child c n = some b := by
  rw [walk_concat] at h
  exact Option.bind_eq_some_iff.mp h

/-- Some path leads from `r` to `a`. -/
def Reached (child : A → ν → Option A) (r a : A) : Prop := ∃ P, walk child r P = some a

/-- At most one path leads from `r` to a node. -/
def Unambiguous (child : A → ν → Option A) (r : A) : Prop :=
  ∀ P Q a, walk child r P = some a → walk child r Q = some a → P = Q

/-- Trees that agree on the nodes reached have the same walks. -/
theorem walk_congr (h : ∀ a n, Reached child r a → child' a n = child a n) : walk child' r P = walk child r P := by
  induction P using List.reverseRecOn with
  | nil => rfl
  | append_singleton P n ih =>
    rw [walk_concat, walk_concat, ih]
    cases hw : walk child r P with
    | none => rfl
    | some a => exact h a n ⟨P, hw⟩

/-- A tree that has all the children of another has its walks. -/
theorem walk_mono (h : ∀ a n c, Reached child r a → child a n = some c → child' a n = some c) (hP : walk child r P = some a) :
    walk child' r P = some a := by
  induction P using List.reverseRecOn generalizing a with
  | nil => exact hP
  | append_singleton P n ih =>
    obtain ⟨b, hb, hc⟩ := walk_concat_some hP
    rw [walk_concat, ih hb, Option.bind_some]
    exact h b n a ⟨P, hb⟩ hc

section
variable (hu : Unambiguous child r) (hp : walk child r P = some p)
  (hother : ∀ a k, Reached child r a → ¬ (a = p ∧ k = n) → child' a k = child a k)
include hu hp hother

/-- A change of the child `n` of `p` changes no walk that does not pass it. -/
theorem walk_beside (hQ : ¬ P ++ [n] <+: Q) : walk child' r Q = walk child r Q := by
  induction Q using List.reverseRecOn with
  | nil => rfl
  | append_singleton Q k ih =>
    have hQ' : ¬ P ++ [n] <+: Q := fun h => hQ (h.trans (List.prefix_append Q [k]))
    rw [walk_concat, walk_concat, ih hQ']
    cases hw : walk child r Q with
    | none => rfl
    | some a =>
      refine hother a k ⟨Q, hw⟩ fun h => ?_
      obtain ⟨rfl, rfl⟩ := h
      obtain rfl := hu P Q a hp hw
      exact hQ List.prefix_rfl

/-- A walk that passes it goes on from the new child. -/
theorem walk_through (hQ : P ++ [n] <+: Q) :
    walk child' r Q = (child' p n).bind fun c => walk child' c (Q.drop (P.length + 1)) := by
  obtain ⟨R, rfl⟩ := hQ
  have hP : ¬ P ++ [n] <+: P := fun h => by
    have := h.length_le
    rw [List.length_append, List.length_singleton] at this
    omega
  rw [walk_append, walk_concat, walk_beside hu hp hother hP, hp]
  simp

end

/-! ### Maps from paths -/

abbrev Namespace (ν : Type v) (α : Type w) := List ν → Option α

namespace Namespace
variable [DecidableEq ν]

/-- `x` at the path `P`, and nothing below it. -/
def graft (ns : Namespace ν α) (P : List ν) (x : α) : Namespace ν α := fun Q =>
  if P <+: Q then if Q = P then some x else none else ns Q

/-- Nothing at the path `P` or below it. -/
def prune (ns : Namespace ν α) (P : List ν) : Namespace ν α := fun Q => if P <+: Q then none else ns Q

/-- What was at the path `P` and below it, moved to the path `P'`, in place of what was there. -/
def move (ns : Namespace ν α) (P P' : List ν) : Namespace ν α := fun Q =>
  if P' <+: Q then ns (P ++ Q.drop P'.length) else if P <+: Q then none else ns Q

/-- The entry at the path `P` changed by `f`. -/
def modify (ns : Namespace ν α) (P : List ν) (f : α → α) : Namespace ν α := fun Q =>
  if Q = P then (ns Q).map f else ns Q

/-- An entry taken away and entered elsewhere is moved if it is what was there and has nothing below it. -/
theorem graft_prune_eq_move {ns : Namespace ν α} {P P' : List ν} {x : α} :
    (ns.prune P).graft P' x = ns.move P P' ↔ ns P = some x ∧ ∀ n R, ns (P ++ n :: R) = none := by
  constructor
  · intro h
    constructor
    · have hat := congrFun h P'
      rw [graft, move, if_pos List.prefix_rfl, if_pos List.prefix_rfl, if_pos rfl, List.drop_length, List.append_nil] at hat
      exact hat.symm
    · intro n R
      have hbelow := congrFun h (P' ++ n :: R)
      rw [graft, move, if_pos (List.prefix_append _ _), if_pos (List.prefix_append _ _), if_neg (by simp), List.drop_left]
        at hbelow
      exact hbelow.symm
  · rintro ⟨hx, hleaf⟩
    funext Q
    rw [graft, move]
    by_cases hQ : P' <+: Q
    · obtain ⟨R, rfl⟩ := hQ
      rw [if_pos (List.prefix_append _ _), if_pos (List.prefix_append _ _), List.drop_left]
      cases R with
      | nil => rw [List.append_nil, List.append_nil, if_pos rfl, hx]
      | cons n R => rw [if_neg (by simp), hleaf]
    · rw [if_neg hQ, if_neg hQ, prune]

end Namespace

/-- What the nodes reached from `r` carry, by their paths. -/
def paths (child : A → ν → Option A) (attr : A → α) (r : A) : Namespace ν α := fun P => (walk child r P).map attr

theorem paths_eq_some {x : α} : paths child attr r P = some x ↔ ∃ a, walk child r P = some a ∧ attr a = x :=
  Option.map_eq_some_iff

theorem paths_congr (hchild : ∀ a n, Reached child r a → child' a n = child a n)
    (hattr : ∀ a, Reached child r a → attr' a = attr a) : paths child' attr' r = paths child attr r := by
  funext P
  rw [paths, paths, walk_congr hchild]
  cases hw : walk child r P with
  | none => rfl
  | some a => exact congrArg some (hattr a ⟨P, hw⟩)

/-- The entries are finitely many if the nodes are. -/
theorem paths_finite (hu : Unambiguous child r) (hfin : {a | Reached child r a}.Finite) :
    {P | paths child attr r P ≠ none}.Finite := by
  have hinj : Set.InjOn (walk child r) {P | paths child attr r P ≠ none} := by
    intro P hP Q _ h
    obtain ⟨x, hx⟩ := Option.ne_none_iff_exists'.mp hP
    obtain ⟨a, ha, -⟩ := paths_eq_some.mp hx
    exact hu P Q a ha (h.symm.trans ha)
  refine Set.Finite.of_finite_image ((hfin.image some).subset fun o ho => ?_) hinj
  obtain ⟨P, hP, rfl⟩ := ho
  obtain ⟨x, hx⟩ := Option.ne_none_iff_exists'.mp hP
  obtain ⟨a, ha, -⟩ := paths_eq_some.mp hx
  exact ⟨a, ⟨P, ha⟩, ha.symm⟩

section
variable [DecidableEq ν] (hu : Unambiguous child r) (hp : walk child r P = some p)
include hu hp

theorem paths_prune (hother : ∀ a k, Reached child r a → ¬ (a = p ∧ k = n) → child' a k = child a k)
    (hattr : ∀ a, Reached child r a → attr' a = attr a) (hnone : child' p n = none) :
    paths child' attr' r = (paths child attr r).prune (P ++ [n]) := by
  funext Q
  rw [Namespace.prune]
  by_cases hQ : P ++ [n] <+: Q
  · rw [if_pos hQ, paths, walk_through hu hp hother hQ, hnone]
    rfl
  · rw [if_neg hQ, paths, walk_beside hu hp hother hQ, paths]
    cases hw : walk child r Q with
    | none => rfl
    | some a => exact congrArg some (hattr a ⟨Q, hw⟩)

theorem paths_graft {c : A} {x : α} (hother : ∀ a k, Reached child r a → ¬ (a = p ∧ k = n) → child' a k = child a k)
    (hattr : ∀ a, Reached child r a → attr' a = attr a) (hnew : child' p n = some c) (hleaf : ∀ k, child' c k = none)
    (hx : attr' c = x) : paths child' attr' r = (paths child attr r).graft (P ++ [n]) x := by
  funext Q
  rw [Namespace.graft]
  by_cases hQ : P ++ [n] <+: Q
  · rw [if_pos hQ, paths, walk_through hu hp hother hQ, hnew]
    obtain ⟨R, rfl⟩ := hQ
    cases R with
    | nil =>
      rw [if_pos (List.append_nil _)]
      simp [hx]
    | cons k R =>
      rw [if_neg (by simp)]
      simp [walk, hleaf]
  · rw [if_neg hQ, paths, walk_beside hu hp hother hQ, paths]
    cases hw : walk child r Q with
    | none => rfl
    | some a => exact congrArg some (hattr a ⟨Q, hw⟩)

theorem paths_modify {f : α → α} (hchild : ∀ a n, Reached child r a → child' a n = child a n)
    (hattr : ∀ a, Reached child r a → a ≠ p → attr' a = attr a) (hf : attr' p = f (attr p)) :
    paths child' attr' r = (paths child attr r).modify P f := by
  funext Q
  rw [Namespace.modify, paths, paths, walk_congr hchild]
  by_cases hQ : Q = P
  · rw [if_pos hQ, hQ, hp]
    exact congrArg some hf
  · rw [if_neg hQ]
    cases hw : walk child r Q with
    | none => rfl
    | some a =>
      refine congrArg some (hattr a ⟨Q, hw⟩ fun h => hQ ?_)
      exact hu Q P p (h ▸ hw) hp

end

end Lib
