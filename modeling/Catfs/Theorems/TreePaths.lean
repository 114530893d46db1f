import Catfs.Lib.Words
import Catfs.Theorems.Paths
import Catfs.Theorems.TreeShape
import Mathlib.Data.List.Induction

/-! # The names on the way to a dentry

The prefix of a directory in the tree is made of the names on the way to it, and these names lead to no other. -/

namespace Catfs

open Lib

namespace LocalMemMeta
variable {m m' : LocalMemMeta} {a c p : Addr} {n : Str} {ws us : List Str}

/-! ### The prefix of a child -/

theorem isRoot_iff (hm : Inv m) (ha : a < m.heapNext) : (m.heap a).isRoot = true ↔ a = 0 := by
  rw [Dentry.isRoot, beq_iff_eq]
  constructor
  · intro h
    have hroot := hm.index 0 hm.rootPos
    have hidx := hm.index a ha
    rw [h, ← hm.rootIno, hroot] at hidx
    exact (Option.some.inj hidx).symm
  · rintro rfl
    exact hm.rootIno

theorem dirPrefix_root (hm : Inv m) : m.dirPrefix 0 = [] := if_pos ((isRoot_iff hm hm.rootPos).mpr rfl)

/-- The loop puts the prefix of the dentry it starts from before what it has gathered. -/
theorem pathLoop_prefix (hm : Inv m) (ha : a < m.heapNext) {fuel : Nat} (hf : a < fuel) (acc : Str) :
    m.pathLoop fuel (some a) acc = some (m.dirPrefix a ++ acc) := by
  induction a using Nat.strongRecOn generalizing fuel acc with
  | ind a ih =>
    obtain ⟨fuel, rfl⟩ := Nat.exists_eq_succ_of_ne_zero (Nat.ne_of_gt (Nat.zero_lt_of_lt hf))
    rw [pathLoop, dirPrefix]
    by_cases hr : (m.heap a).isRoot = true
    · rw [if_pos hr, if_pos hr, List.nil_append]
    · rw [if_neg hr, if_neg hr, fullPath, if_neg hr]
      cases hp : (m.heap a).parent with
      | none => simp [pathLoop]
      | some p =>
        have hlt := hm.parent a p ha hp
        have hpn := Nat.lt_trans hlt ha
        rw [ih p hlt hpn (Nat.lt_of_lt_of_le hlt (Nat.le_of_lt_succ hf)), ih p hlt hpn hpn]
        simp

/-- The key of a child is the prefix of its parent and its name. -/
theorem fullPath_child (hm : Inv m) (ha : a < m.heapNext) (hc : (m.heap a).getChild n = some c) :
    m.fullPath c = some (m.dirPrefix a ++ n) := by
  obtain ⟨hac, hcn, hname, hparent⟩ := hm.child a n c ha hc
  have hroot : ¬ (m.heap c).isRoot = true := fun h => Nat.not_lt_zero a ((isRoot_iff hm hcn).mp h ▸ hac)
  rw [fullPath, if_neg hroot, hparent, hname]
  exact pathLoop_prefix hm ha ha n

theorem dirPrefix_child (hm : Inv m) (ha : a < m.heapNext) (hc : (m.heap a).getChild n = some c) :
    m.dirPrefix c = m.dirPrefix a ++ n ++ slash := by
  obtain ⟨hac, hcn, -, -⟩ := hm.child a n c ha hc
  have hroot : ¬ (m.heap c).isRoot = true := fun h => Nat.not_lt_zero a ((isRoot_iff hm hcn).mp h ▸ hac)
  rw [dirPrefix, if_neg hroot, fullPath_child hm ha hc]
  rfl

/-! ### Ways -/

/-- `ws` are the names on a way from the root to `a`. -/
inductive PathTo (m : LocalMemMeta) : Addr → List Str → Prop where
  | root : PathTo m m.rootDentry []
  | child {a c : Addr} {ws : List Str} {n : Str} (h : PathTo m a ws) (hc : (m.heap a).getChild n = some c) :
      PathTo m c (ws ++ [n])

theorem Attached.path (h : Attached m a) : ∃ ws, PathTo m a ws := by
  induction h with
  | root => exact ⟨[], .root⟩
  | child _ hc ih =>
    obtain ⟨ws, hw⟩ := ih
    exact ⟨_, hw.child hc⟩

theorem PathTo.attached (h : PathTo m a ws) : Attached m a := by
  induction h with
  | root => exact .root
  | child _ hc ih => exact ih.child hc

theorem PathTo.dirPrefix (hm : Inv m) (h : PathTo m a ws) : m.dirPrefix a = terminated '/' ws := by
  induction h with
  | root => rw [hm.root, dirPrefix_root hm, terminated_nil]
  | child h hc ih =>
    rw [dirPrefix_child hm (h.attached.allocated hm) hc, ih, terminated_append]
    simp [slash]

/-- The last step of a way. -/
theorem PathTo.last (h : PathTo m c (ws ++ [n])) : ∃ a, PathTo m a ws ∧ (m.heap a).getChild n = some c := by
  generalize hw : ws ++ [n] = vs at h
  cases h with
  | root => simp at hw
  | child h hc =>
    obtain ⟨rfl, hn⟩ := List.append_inj' hw rfl
    cases hn
    exact ⟨_, h, hc⟩

/-- A way leads to one dentry. -/
theorem PathTo.unique (h : PathTo m a ws) (h' : PathTo m p ws) : a = p := by
  induction h generalizing p with
  | root =>
    generalize hw : ([] : List Str) = vs at h'
    cases h' with
    | root => rfl
    | child => simp at hw
  | child _ hc ih =>
    obtain ⟨b, hb, hc'⟩ := h'.last
    obtain rfl := ih hb
    exact Option.some.inj (hc.symm.trans hc')

/-- A way that goes on after `a` goes on to a child of `a`. -/
theorem PathTo.next (h : PathTo m p (ws ++ n :: us)) (ha : PathTo m a ws) : ∃ ch, (m.heap a).getChild n = some ch := by
  induction us using List.reverseRecOn generalizing p with
  | nil =>
    obtain ⟨b, hb, hc⟩ := h.last
    obtain rfl := ha.unique hb
    exact ⟨p, hc⟩
  | append_singleton us k ih =>
    have hw : ws ++ n :: (us ++ [k]) = (ws ++ n :: us) ++ [k] := by simp
    rw [hw] at h
    obtain ⟨b, hb, -⟩ := h.last
    exact ih hb

/-- The names of all dentries are single components of paths. -/
def PlainNames (m : LocalMemMeta) : Prop := ∀ a, a < m.heapNext → '/' ∉ (m.heap a).name

theorem PathTo.plain (hm : Inv m) (hp : PlainNames m) (h : PathTo m a ws) : ∀ w ∈ ws, '/' ∉ w := by
  induction h with
  | root => exact fun w hw => absurd hw List.not_mem_nil
  | child h hc ih =>
    intro w hw
    obtain ⟨-, hcn, hname, -⟩ := hm.child _ _ _ (h.attached.allocated hm) hc
    rcases List.mem_append.mp hw with hw | hw
    · exact ih w hw
    · rw [List.mem_singleton.mp hw, ← hname]
      exact hp _ hcn

/-- The part `k` of a key between the prefix of `a` and the next slash or the key's end is a child of `a`, or the
    name of the key's own entry, when the key is the entry `n` of `p`. -/
theorem next_child (hm : Inv m) (hp : PlainNames m) (ha : Attached m a) (hpar : Attached m p) {k rest last : Str}
    (hn : '/' ∉ n) (hk : '/' ∉ k) (hne : k ≠ []) (hrest : WordEnd '/' rest) (hlast : last = [] ∨ last = slash)
    (h : m.dirPrefix a ++ (k ++ rest) = m.dirPrefix p ++ (n ++ last)) :
    (a = p ∧ k = n) ∨ ∃ ch, (m.heap a).getChild k = some ch := by
  obtain ⟨ws, hws⟩ := ha.path
  obtain ⟨vs, hvs⟩ := hpar.path
  rw [hws.dirPrefix hm, hvs.dirPrefix hm] at h
  rcases next_word (hws.plain hm hp) (hvs.plain hm hp) hk hn hne hrest hlast h with ⟨rfl, rfl⟩ | ⟨us, rfl⟩
  · exact .inl ⟨hws.unique hvs, rfl⟩
  · exact .inr (hvs.next hws)

end LocalMemMeta

end Catfs
