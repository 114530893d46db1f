import Mathlib.Data.List.Sort
import Mathlib.Order.Lattice

/-! # Pages of a sorted list

A service that answers a listing page by page: each page holds the first items after a marker, and the last item
of a page is the marker of the next. -/

namespace Lib

variable {α : Type} [LinearOrder α]

/-- The items after the marker; `none` is before all of them. -/
def after (marker : Option α) (items : List α) : List α :=
  items.filter fun x => marker.all (· < x)

/-- The page of at most `k` items after the marker. -/
def page (marker : Option α) (k : Nat) (items : List α) : List α := (after marker items).take k

/-- There are items after the page. -/
def truncated (marker : Option α) (k : Nat) (items : List α) : Bool := k < (after marker items).length

section
variable {marker : Option α} {k : Nat} {items : List α} {x z : α}

theorem mem_after : x ∈ after marker items ↔ x ∈ items ∧ ∀ m, marker = some m → m < x := by
  cases marker <;> simp [after]

@[simp] theorem after_none : after none items = items := by simp [after]

theorem mem_of_mem_page (h : x ∈ page marker k items) : x ∈ items := (mem_after.mp (List.mem_of_mem_take h)).1

/-- The last item of a sorted list is its greatest. -/
theorem le_last (hs : items.Pairwise (· < ·)) (hz : items.getLast? = some z) : ∀ y ∈ items, y ≤ z := by
  intro y hy
  obtain ⟨front, rfl⟩ := List.getLast?_eq_some_iff.mp hz
  rcases List.mem_append.mp hy with hy | hy
  · exact ((List.pairwise_append.mp hs).2.2 y hy z (List.mem_singleton_self z)).le
  · exact (List.mem_singleton.mp hy).le

/-- A page that is not truncated is the rest of the items. -/
theorem mem_page_last (h : truncated marker k items = false) : x ∈ page marker k items ↔ x ∈ after marker items := by
  rw [page, List.take_of_length_le]
  simpa [truncated] using h

/-- The items after the marker are those of the page and those after its last item. -/
theorem mem_after_page (hs : items.Pairwise (· < ·)) (hz : (page marker k items).getLast? = some z) :
    x ∈ after marker items ↔ x ∈ page marker k items ∨ x ∈ after (some z) items := by
  have hzp : z ∈ page marker k items := List.mem_of_getLast? hz
  have hza := mem_after.mp (List.mem_of_mem_take hzp)
  constructor
  · intro hx
    rw [← List.take_append_drop k (after marker items)] at hx
    rcases List.mem_append.mp hx with hx | hx
    · exact .inl hx
    · refine .inr (mem_after.mpr ⟨(mem_after.mp (List.mem_of_mem_drop hx)).1, fun m hm => ?_⟩)
      cases hm
      have hsorted : (List.take k (after marker items) ++ List.drop k (after marker items)).Pairwise (· < ·) := by
        rw [List.take_append_drop]
        exact hs.filter _
      exact (List.pairwise_append.mp hsorted).2.2 z hzp x hx
  · rintro (hx | hx)
    · exact List.mem_of_mem_take hx
    · obtain ⟨hx, hlt⟩ := mem_after.mp hx
      exact mem_after.mpr ⟨hx, fun m hm => lt_trans (hza.2 m hm) (hlt z rfl)⟩

/-- An item that the marker has not passed is on the page, or the page's last item has not passed it either. -/
theorem mem_page_or_lt (hs : items.Pairwise (· < ·)) (hx : x ∈ items) (hm : ∀ m, marker = some m → m < x) :
    x ∈ page marker k items ∨ truncated marker k items = true ∧ ∀ z, (page marker k items).getLast? = some z → z < x := by
  have hafter := mem_after.mpr ⟨hx, hm⟩
  cases ht : truncated marker k items with
  | false => exact .inl ((mem_page_last ht).mpr hafter)
  | true =>
    by_cases hpage : x ∈ page marker k items
    · exact .inl hpage
    · exact .inr ⟨rfl, fun z hz => (mem_after.mp (((mem_after_page hs hz).mp hafter).resolve_left hpage)).2 z rfl⟩

/-- A page leaves out nothing before its items. -/
theorem mem_page_of_lt (hs : items.Pairwise (· < ·)) (hx : x ∈ after marker items) (hz : z ∈ page marker k items)
    (h : x < z) : x ∈ page marker k items := by
  rw [← List.take_append_drop k (after marker items)] at hx
  rcases List.mem_append.mp hx with hx | hx
  · exact hx
  · have hsorted : (List.take k (after marker items) ++ List.drop k (after marker items)).Pairwise (· < ·) := by
      rw [List.take_append_drop]
      exact hs.filter _
    exact absurd h (lt_asymm ((List.pairwise_append.mp hsorted).2.2 z hz x hx))

/-- Fewer items come after an item than after the marker before it. -/
theorem length_after_lt (hz : z ∈ after marker items) : (after (some z) items).length < (after marker items).length := by
  have hafter : after (some z) items = (after marker items).filter (z < ·) := by
    rw [after, after, List.filter_filter]
    refine List.filter_congr fun x _ => ?_
    by_cases hlt : z < x
    · have hx : marker.all (· < x) = true := by
        cases marker with
        | none => rfl
        | some y => exact decide_eq_true (lt_trans ((mem_after.mp hz).2 y rfl) hlt)
      simp [hlt, hx]
    · simp [hlt]
  rw [hafter]
  exact List.length_filter_lt_length_iff_exists.mpr ⟨z, hz, by simp⟩

theorem page_ne_nil (hk : 0 < k) (h : truncated marker k items = true) : page marker k items ≠ [] := by
  simp only [truncated, decide_eq_true_eq] at h
  intro hnil
  have := congrArg List.length hnil
  rw [page, List.length_take, List.length_nil] at this
  omega

end

end Lib
