import Mathlib.Data.List.Basic
import Mathlib.Data.List.Infix
import Mathlib.Data.List.Nodup

/-! # Going through a list by a cursor

A reader pulls the items from a cursor on, time after time. A pull shows the first few of those with a property of its
own and moves the cursor by how many it showed. A pull that passes an item without showing it so comes to stand before
what it did show. -/

namespace Lib

variable {α : Type} {p q : α → Bool} {l : List α} {n : Nat} {x : α}

/-! ### The first items with a property -/

theorem filter_take_prefix : (l.take n).filter p <+: (l.filter p).take n := by
  have hpre : (l.take n).filter p <+: l.filter p := (List.take_prefix n l).filter p
  refine List.prefix_take_iff.mpr ⟨hpre, (List.length_filter_le _ _).trans ?_⟩
  rw [List.length_take]
  exact Nat.min_le_left _ _

theorem mem_take_filter (hx : x ∈ l.take n) (hp : p x = true) : x ∈ (l.filter p).take n :=
  filter_take_prefix.subset (List.mem_filter.mpr ⟨hx, hp⟩)

theorem take_filter_eq (h : ∀ x ∈ l.take n, p x = true) (hn : n ≤ (l.filter p).length) : (l.filter p).take n = l.take n := by
  have hall : (l.take n).filter p = l.take n := List.filter_eq_self.mpr h
  have hlen : ((l.filter p).take n).length ≤ ((l.take n).filter p).length := by
    have hle := List.length_filter_le p l
    rw [hall, List.length_take, List.length_take]
    omega
  rw [← filter_take_prefix.eq_of_length_le hlen, hall]

/-- An item with the property is among the first `n` when fewer than `n` are without it. -/
theorem filter_take_ne_nil (h : l.filter p ≠ []) (hn : (l.filter fun x => !p x).length < n) : (l.take n).filter p ≠ [] := by
  intro hnil
  have hall : (l.take n).filter (fun x => !p x) = l.take n := by
    refine List.filter_eq_self.mpr fun x hx => ?_
    simpa using List.filter_eq_nil_iff.mp hnil x hx
  have hle := ((List.take_sublist n l).filter fun x => !p x).length_le
  rw [hall, List.length_take] at hle
  rw [List.take_of_length_le (by omega)] at hnil
  exact h hnil

/-- What is shown past an item that is not lies beyond the first `n`. -/
theorem exists_mem_drop (h : ∃ x ∈ l.take n, p x = false) (hn : n ≤ (l.filter p).length) :
    ∃ y ∈ (l.filter p).take n, y ∈ l.drop n := by
  obtain ⟨x, hx, hpx⟩ := h
  have hsplit : l.filter p = (l.take n).filter p ++ (l.drop n).filter p := by
    rw [← List.filter_append, List.take_append_drop]
  have hlt : ((l.take n).filter p).length < n := by
    refine Nat.lt_of_lt_of_le (List.length_filter_lt_length_iff_exists.mpr ⟨x, hx, by simp [hpx]⟩) ?_
    rw [List.length_take]
    exact Nat.min_le_left _ _
  obtain ⟨k, hk⟩ : ∃ k, n = ((l.take n).filter p).length + (k + 1) := ⟨n - ((l.take n).filter p).length - 1, by omega⟩
  cases hd : (l.drop n).filter p with
  | nil =>
    rw [hsplit, hd, List.append_nil] at hn
    omega
  | cons y rest =>
    refine ⟨y, ?_, List.mem_of_mem_filter (hd ▸ List.mem_cons_self)⟩
    rw [hsplit, hd, List.take_append, List.mem_append]
    right
    obtain ⟨k', hk'⟩ : ∃ k', n - ((l.take n).filter p).length = k' + 1 := ⟨k, by omega⟩
    rw [hk', List.take_succ_cons]
    exact List.mem_cons_self

/-- One of the first `n` items is without the property exactly when one stands before the `n`-th or an earlier item that
    has it. -/
theorem exists_take_iff (hn : n ≤ (l.filter p).length) : (∃ x ∈ l.take n, p x = false) ↔
    ∃ pre y post, l = pre ++ y :: post ∧ p y = true ∧ (∃ x ∈ pre, p x = false) ∧ (pre.filter p).length < n := by
  constructor
  · rintro ⟨x, hx, hpx⟩
    have hlt : ((l.take n).filter p).length < n := by
      refine Nat.lt_of_lt_of_le (List.length_filter_lt_length_iff_exists.mpr ⟨x, hx, by simp [hpx]⟩) ?_
      rw [List.length_take]
      exact Nat.min_le_left _ _
    have hsplit : (l.filter p).length = ((l.take n).filter p).length + ((l.drop n).filter p).length := by
      rw [← List.length_append, ← List.filter_append, List.take_append_drop]
    obtain ⟨y, rest, hy⟩ := List.exists_cons_of_length_pos (l := (l.drop n).filter p) (by omega)
    obtain ⟨pre, post, hdrop, hnone, hpy, -⟩ := List.filter_eq_cons_iff.mp hy
    refine ⟨l.take n ++ pre, y, post, ?_, hpy, ⟨x, List.mem_append_left _ hx, hpx⟩, ?_⟩
    · rw [List.append_assoc, ← hdrop, List.take_append_drop]
    · have hpre : pre.filter p = [] := List.filter_eq_nil_iff.mpr hnone
      rw [List.filter_append, hpre, List.append_nil]
      exact hlt
  · rintro ⟨pre, y, post, rfl, -, ⟨x, hx, hpx⟩, hlt⟩
    by_cases hle : n ≤ pre.length
    · rw [List.take_append_of_le_length hle]
      by_contra hno
      have hall : (pre.take n).filter p = pre.take n := by
        refine List.filter_eq_self.mpr fun z hz => ?_
        by_contra hpz
        exact hno ⟨z, hz, by simpa using hpz⟩
      have hlen := ((List.take_sublist n pre).filter p).length_le
      rw [hall, List.length_take] at hlen
      omega
    · refine ⟨x, ?_, hpx⟩
      rw [List.take_append, List.take_of_length_le (by omega)]
      exact List.mem_append_left _ hx

/-! ### Pulls -/

/-- A pull from `cursor` on that shows the first `count` of the items with `shows`. -/
structure Pull (α : Type) where
  shows : α → Bool
  cursor : Nat
  count : Nat

namespace Pull

def visible (t : Pull α) (items : List α) : List α := (items.drop t.cursor).filter t.shows

def page (t : Pull α) (items : List α) : List α := (t.visible items).take t.count

/-- The pull passes an item that it does not show. -/
def Skips (t : Pull α) (items : List α) : Prop := ∃ x ∈ (items.drop t.cursor).take t.count, t.shows x = false

end Pull

/-- The pulls made from the start of the list, where the cursor came to stand and what was shown. -/
inductive Walk (items : List α) : List (Pull α) → Nat → List α → Prop where
  | start : Walk items [] 0 []
  | pull {ts : List (Pull α)} {c : Nat} {seen : List α} {t : Pull α} (h : Walk items ts c seen) (hc : t.cursor = c)
      (hcount : t.count ≤ (t.visible items).length) : Walk items (ts ++ [t]) (c + t.count) (seen ++ t.page items)

namespace Walk
variable {items seen : List α} {ts : List (Pull α)} {t : Pull α} {c : Nat}

theorem cursor_le (h : Walk items ts c seen) : c ≤ items.length := by
  induction h with
  | start => exact Nat.zero_le _
  | @pull ts c seen t h hc hcount ih =>
    subst hc
    have hle := hcount.trans (List.length_filter_le _ _)
    rw [List.length_drop] at hle
    omega

/-- Pulls that skip nothing show the list as it is. -/
theorem inOrder (h : Walk items ts c seen) (hts : ∀ t ∈ ts, ¬ t.Skips items) : seen = items.take c := by
  induction h with
  | start => rfl
  | @pull ts c seen t h hc hcount ih =>
    subst hc
    have hshow : ∀ x ∈ (items.drop t.cursor).take t.count, t.shows x = true := by
      intro x hx
      by_contra hno
      exact hts t (List.mem_append_right _ (List.mem_singleton_self t)) ⟨x, hx, by simpa using hno⟩
    rw [ih fun u hu => hts u (List.mem_append_left _ hu), Pull.page, Pull.visible, take_filter_eq hshow hcount,
      ← List.take_add]

variable [BEq α] [LawfulBEq α]

/-- Once an item is passed over, some item was shown and is still to come, or was shown twice. -/
theorem behind (h : Walk items ts c seen) (hq : ∀ t ∈ ts, ∀ x, q x = true → t.shows x = true)
    (hskip : ∃ t ∈ ts, t.Skips items ∧ ∀ x, t.shows x = true → q x = true) :
    (∃ y, q y = true ∧ y ∈ seen ∧ y ∈ items.drop c) ∨ ∃ y, q y = true ∧ 2 ≤ seen.count y := by
  induction h with
  | start =>
    obtain ⟨t, ht, -⟩ := hskip
    cases ht
  | @pull ts c seen t h hc hcount ih =>
    subst hc
    obtain ⟨u, hu, hskips, honly⟩ := hskip
    rcases List.mem_append.mp hu with hu | hu
    · have hold := ih (fun t ht => hq t (List.mem_append_left _ ht)) ⟨u, hu, hskips, honly⟩
      rcases hold with ⟨y, hy, hseen, hmem⟩ | ⟨y, hy, htwo⟩
      · rw [← List.take_append_drop t.count (items.drop t.cursor), List.drop_drop, List.mem_append] at hmem
        rcases hmem with hmem | hmem
        · refine .inr ⟨y, hy, ?_⟩
          have hpage : y ∈ t.page items :=
            mem_take_filter hmem (hq t (List.mem_append_right _ (List.mem_singleton_self t)) y hy)
          have h₁ := List.count_pos_iff.mpr hseen
          have h₂ := List.count_pos_iff.mpr hpage
          rw [List.count_append]
          omega
        · exact .inl ⟨y, hy, List.mem_append_left _ hseen, hmem⟩
      · refine .inr ⟨y, hy, ?_⟩
        rw [List.count_append]
        omega
    · obtain rfl := List.mem_singleton.mp hu
      obtain ⟨y, hpage, hmem⟩ := exists_mem_drop hskips hcount
      rw [List.drop_drop] at hmem
      have hshows : u.shows y = true := (List.mem_filter.mp (List.mem_of_mem_take hpage)).2
      exact .inl ⟨y, honly y hshows, List.mem_append_right _ hpage, hmem⟩

/-- At the end of a walk each item with `q` was shown exactly once if and only if no pull passed an item over. -/
theorem once_iff (h : Walk items ts c seen) (hend : ∀ x ∈ items.drop c, q x = false) (hnodup : (items.filter q).Nodup)
    (hts : ∀ t ∈ ts, t.shows = q ∨ ∀ x, t.shows x = true) :
    (∀ x ∈ items, q x = true → seen.count x = 1) ↔ ∀ t ∈ ts, ¬ t.Skips items := by
  have hq : ∀ t ∈ ts, ∀ x, q x = true → t.shows x = true := by
    intro t ht x hx
    rcases hts t ht with heq | hall
    · rwa [heq]
    · exact hall x
  have hseen : ∀ x ∈ seen, x ∈ items := by
    clear hend hts hq
    induction h with
    | start => simp
    | pull _ _ _ ih =>
      intro x hx
      rcases List.mem_append.mp hx with hx | hx
      · exact ih x hx
      · exact List.mem_of_mem_drop (List.mem_of_mem_filter (List.mem_of_mem_take hx))
  constructor
  · intro honce t ht hskips
    have honly : ∀ x, t.shows x = true → q x = true := by
      rcases hts t ht with heq | hall
      · rw [heq]
        exact fun _ => id
      · obtain ⟨x, -, hx⟩ := hskips
        rw [hall x] at hx
        cases hx
    rcases h.behind hq ⟨t, ht, hskips, honly⟩ with ⟨y, hy, -, hmem⟩ | ⟨y, hy, htwo⟩
    · rw [hend y hmem] at hy
      cases hy
    · have hmem : y ∈ items := hseen y (List.count_pos_iff.mp (by omega))
      have := honce y hmem hy
      omega
  · intro hnone x hx hqx
    have hcount : (items.filter q).count x = 1 := List.count_eq_one_of_mem hnodup (List.mem_filter.mpr ⟨hx, hqx⟩)
    rw [List.count_filter hqx, ← List.take_append_drop c items, List.count_append] at hcount
    have hzero : (items.drop c).count x = 0 := List.count_eq_zero.mpr fun hmem => by
      rw [hend x hmem] at hqx
      cases hqx
    rw [h.inOrder hnone]
    omega

end Walk

end Lib
