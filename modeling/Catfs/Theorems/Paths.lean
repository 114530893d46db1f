import Catfs.Theorems.CacheInv

/-! # Full paths

The chain of parents ends, so every allocated dentry has a full path, and what no operation changes, the
names and the parents, fixes it. -/

namespace Catfs

open Lib
open EStateM (Result)

namespace LocalMemMeta
variable {m m' : LocalMemMeta} {a : Addr}

theorem pathLoop_some (hm : Inv m) (fuel : Nat) (o : Option Addr) (acc : Str)
    (h : ∀ p, o = some p → p < fuel ∧ p < m.heapNext) : ∃ path, m.pathLoop fuel o acc = some path := by
  induction fuel generalizing o acc with
  | zero =>
    cases o with
    | none => exact ⟨acc, rfl⟩
    | some p => exact absurd (h p rfl).1 (Nat.not_lt_zero _)
  | succ fuel ih =>
    cases o with
    | none => exact ⟨acc, rfl⟩
    | some p =>
      obtain ⟨hp, hp'⟩ := h p rfl
      rw [pathLoop]
      split
      · exact ⟨acc, rfl⟩
      · refine ih _ _ fun q hq => ?_
        have hlt := hm.parent p q hp' hq
        exact ⟨Nat.lt_of_lt_of_le hlt (Nat.le_of_lt_succ hp), Nat.lt_trans hlt hp'⟩

theorem fullPath_some (hm : Inv m) (ha : a < m.heapNext) : ∃ path, m.fullPath a = some path := by
  unfold fullPath
  split
  · exact ⟨[], rfl⟩
  · refine pathLoop_some hm _ _ _ fun p hp => ?_
    have hlt := Nat.lt_trans (hm.parent a p ha hp) ha
    exact ⟨hlt, hlt⟩

theorem run_getFullPath {path : Str} (h : m.fullPath a = some path) : getFullPath a m = .ok path m := by
  have hg : (get : LocalM _) m = .ok m m := rfl
  rw [getFullPath, bind_ok hg, h]
  rfl

/-! ### Paths do not change -/

theorem isRoot_grow (hg : Grow m m') (ha : a < m.heapNext) : (m'.heap a).isRoot = (m.heap a).isRoot := by
  rw [Dentry.isRoot, hg.ino a ha, Dentry.isRoot]

theorem pathLoop_grow (hm : Inv m) (hg : Grow m m') (fuel k : Nat) (o : Option Addr) (acc path : Str)
    (ho : ∀ p, o = some p → p < m.heapNext) (h : m.pathLoop fuel o acc = some path) :
    m'.pathLoop (fuel + k) o acc = some path := by
  induction fuel generalizing o acc with
  | zero =>
    cases o with
    | none => simpa [pathLoop] using h
    | some p => cases h
  | succ fuel ih =>
    cases o with
    | none => simpa [pathLoop] using h
    | some p =>
      have hp := ho p rfl
      rw [Nat.add_right_comm, pathLoop, isRoot_grow hg hp]
      rw [pathLoop] at h
      by_cases hr : (m.heap p).isRoot = true
      · rw [if_pos hr] at h ⊢
        exact h
      · rw [if_neg hr] at h ⊢
        rw [hg.parent p hp, hg.name p hp]
        exact ih _ _ (fun q hq => Nat.lt_trans (hm.parent p q hp hq) hp) h

theorem fullPath_grow (hm : Inv m) (hg : Grow m m') (ha : a < m.heapNext) : m'.fullPath a = m.fullPath a := by
  obtain ⟨path, h⟩ := fullPath_some hm ha
  rw [h]
  unfold fullPath at h ⊢
  rw [isRoot_grow hg ha]
  split
  · rename_i hroot
    rw [if_pos hroot] at h
    exact h
  · rename_i hroot
    rw [if_neg hroot] at h
    obtain ⟨k, hk⟩ := Nat.exists_eq_add_of_le hg.next
    rw [hk, hg.parent a ha, hg.name a ha]
    exact pathLoop_grow hm hg _ k _ _ _ (fun p hp => Nat.lt_trans (hm.parent a p ha hp) ha) h

/-! ### The prefix of a directory -/

/-- What `get_full_path_with_slash` returns. -/
def dirPrefix (m : LocalMemMeta) (a : Addr) : Str :=
  if (m.heap a).isRoot then [] else (m.fullPath a).getD [] ++ slash

theorem run_getFullPathWithSlash (hm : Inv m) (ha : a < m.heapNext) :
    getFullPathWithSlash a m = .ok (m.dirPrefix a) m := by
  obtain ⟨path, h⟩ := fullPath_some hm ha
  have hload : load a m = .ok (m.heap a) m := rfl
  rw [getFullPathWithSlash, bind_ok hload, dirPrefix]
  split
  · rfl
  · rw [bind_ok (run_getFullPath h), h]
    rfl

theorem dirPrefix_grow (hm : Inv m) (hg : Grow m m') (ha : a < m.heapNext) : m'.dirPrefix a = m.dirPrefix a := by
  rw [dirPrefix, isRoot_grow hg ha, fullPath_grow hm hg ha, dirPrefix]

end LocalMemMeta

end Catfs
