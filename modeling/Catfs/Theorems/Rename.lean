import Catfs.Theorems.Namespace
import Catfs.Theorems.Handles
import Catfs.Theorems.LogClient

/-! # The rename of a cached entry

`rename` enters a new dentry for an inode that was freed. It moves what was there only when the freed memory was not
changed, and loses what was below a directory. -/

namespace Catfs

open Lib
open EStateM (Result)

namespace LocalMemMeta
variable {m m₁ : LocalMemMeta} {a d p q src : Addr} {n k : Str} {inode freed : Inode} {P Q : List Str} {srcPino dstPino : InodeID}
  {srcName dstName : Str}

/-! ### What a rename does -/

theorem run_rename_unknown (h : m.lookup srcPino = none ∨ m.lookup dstPino = none) :
    ∃ e, rename freed srcPino srcName dstPino dstName m = .error e m := by
  cases hsrc : m.lookup srcPino with
  | none =>
    have hg : getParent srcPino m = .error (.invalidInodeID srcPino) m := by rw [run_getParent, hsrc]
    exact ⟨_, by rw [rename, bind_error hg]⟩
  | some p =>
    have hdst : m.lookup dstPino = none := by
      rcases h with h | h
      · cases hsrc.symm.trans h
      · exact h
    have hg : getParent srcPino m = .ok p m := by rw [run_getParent, hsrc]
    have hg' : getParent dstPino m = .error (.invalidInodeID dstPino) m := by rw [run_getParent, hdst]
    exact ⟨_, by rw [rename, bind_ok hg, bind_error hg']⟩

variable (freed dstName) in
theorem run_rename (hp : m.lookup srcPino = some p) (hq : m.lookup dstPino = some q) (hqm : q < m.heapNext)
    (hsrc : (m.heap p).getChild srcName = some src) : rename freed srcPino srcName dstPino dstName m =
      .ok () ((m.set p fun d => { d with children := d.children.erase srcName }).link q dstName freed) := by
  have hg : getParent srcPino m = .ok p m := by rw [run_getParent, hp]
  have hg' : getParent dstPino m = .ok q m := by rw [run_getParent, hq]
  rw [rename, bind_ok hg, bind_ok hg', bind_ok run_load, hsrc]
  dsimp only
  rw [bind_ok run_removeChild, bind_ok (run_addChildForDentry (m := m.set p _) hqm)]
  rfl

/-- What a rename of the entry at `S` to `D` must do: the entries move, and each still has its number. -/
structure Renamed (m : LocalMemMeta) (S D : List Str) (r : Result Err LocalMemMeta Unit) : Prop where
  returns : r = .ok () (endState r)
  entries : (endState r).entries = m.entries.move S D
  index : ∀ P a, (endState r).walkFrom P = some a → (endState r).lookup ((endState r).heap a).inode.ino = some a

/-- Nothing is below an entry without children, and something below one with children. -/
theorem entries_below_iff (hS : m.walkFrom P = some src) :
    (∀ n R, m.entries (P ++ n :: R) = none) ↔ ∀ n, (m.heap src).getChild n = none := by
  constructor
  · intro h n
    cases hc : (m.heap src).getChild n with
    | none => rfl
    | some c =>
      have hway : m.walkFrom (P ++ [n]) = some c := by
        rw [walkFrom, walk_concat, show Lib.walk _ _ P = some src from hS]
        exact hc
      cases (h n []).symm.trans (paths_eq_some.mpr ⟨c, hway, rfl⟩)
  · intro h n R
    have hway : m.walkFrom (P ++ n :: R) = none := by
      rw [walkFrom, walk_append, show Lib.walk _ _ P = some src from hS, Option.bind_some, Lib.walk, h]
      rfl
    exact congrArg (Option.map fun a => (m.heap a).inode) hway

/-- A rename between two directories in the tree moves the entry exactly when the freed memory still holds its inode and
    it has no children. -/
theorem renamed_iff (hm : Inv m) (hp : m.lookup srcPino = some p) (hq : m.lookup dstPino = some q) (hP : m.walkFrom P = some p)
    (hQ : m.walkFrom Q = some q) (hsrc : (m.heap p).getChild srcName = some src) (hout : ¬ P ++ [srcName] <+: Q) :
    Renamed m (P ++ [srcName]) (Q ++ [dstName]) (rename freed srcPino srcName dstPino dstName m) ↔
      freed = (m.heap src).inode ∧ ∀ n, (m.heap src).getChild n = none := by
  have hroot := (walk_allocated hm (P := []) rfl : m.rootDentry < m.heapNext)
  have hqm := walk_allocated hm hQ
  have hrun := run_rename freed dstName hp hq hqm hsrc
  obtain ⟨m₁, hm₁⟩ : ∃ m₁, m₁ = m.set p fun d => { d with children := d.children.erase srcName } := ⟨_, rfl⟩
  rw [← hm₁] at hrun
  have hinv₁ : Inv m₁ := hm₁ ▸ hm.set Mild.erase
  have hnext₁ : m₁.heapNext = m.heapNext := by rw [hm₁, heapNext_set]
  have hlookup₁ : ∀ i, m₁.lookup i = m.lookup i := fun i => by rw [hm₁, lookup_set]
  have hinode₁ : ∀ a, (m₁.heap a).inode = (m.heap a).inode := by
    intro a
    rw [hm₁, heap_set]
    split
    · rename_i hap
      rw [hap]
    · rfl
  have hways₁ : ∀ R, m₁.walkFrom R = if P ++ [srcName] <+: R then none else m.walkFrom R := by
    intro R
    rw [hm₁]
    exact wayFrom_erase hm hroot hP
  have hQ₁ : m₁.walkFrom Q = some q := by rw [hways₁, if_neg hout, hQ]
  have hS : m.walkFrom (P ++ [srcName]) = some src := by
    rw [walkFrom, walk_concat, show Lib.walk _ _ P = some p from hP]
    exact hsrc
  have hentries : (m₁.link q dstName freed).entries = (m.entries.prune (P ++ [srcName])).graft (Q ++ [dstName]) freed := by
    rw [entries_link hinv₁ (walk_allocated hinv₁ hQ₁) hQ₁, hm₁, entries_erase hm hP]
  have hinode : m.entries (P ++ [srcName]) = some freed ↔ freed = (m.heap src).inode := by
    rw [LocalMemMeta.entries, paths, show Lib.walk _ _ (P ++ [srcName]) = some src from hS, Option.map_some,
      Option.some.injEq, eq_comm]
  have hmoves : (m₁.link q dstName freed).entries = m.entries.move (P ++ [srcName]) (Q ++ [dstName]) ↔
      freed = (m.heap src).inode ∧ ∀ n, (m.heap src).getChild n = none := by
    rw [hentries, Namespace.graft_prune_eq_move, hinode, entries_below_iff hS]
  rw [hrun]
  constructor
  · exact fun h => hmoves.mp h.entries
  · intro h
    refine ⟨rfl, hmoves.mpr h, fun R a ha => ?_⟩
    have hhere : (m₁.link q dstName freed).walkFrom R = _ := wayFrom_link hinv₁ (Q := R) (walk_allocated hinv₁ (P := []) rfl) hQ₁
    rw [endState_ok] at ha ⊢
    rw [hhere] at ha
    rw [lookup_link]
    split at ha
    · -- The new dentry.
      split at ha
      · obtain rfl := Option.some.inj ha
        rw [if_pos]
        rw [heap_link_new _ _ (walk_allocated hinv₁ hQ₁)]
        rfl
      · cases ha
    · have hne : a ≠ src := by
        rintro rfl
        have ha₁ : m₁.walkFrom R = some a := ha
        rw [hways₁] at ha₁
        split at ha₁
        · cases ha₁
        · rename_i hnot
          exact hnot (unambiguous hm _ _ _ hS ha₁ ▸ List.prefix_rfl)
      have halloc : a < m.heapNext := hnext₁ ▸ walk_allocated hinv₁ ha
      have hsame : ((m₁.link q dstName freed).heap a).inode = (m.heap a).inode := by
        by_cases haq : a = q
        · rw [haq, heap_link_parent (walk_allocated hinv₁ hQ₁), hinode₁]
        · rw [heap_link_other (walk_allocated hinv₁ ha) haq, hinode₁]
      rw [hsame, if_neg]
      · rw [hlookup₁]
        exact hm.index a halloc
      · rw [h.1]
        exact fun hino => hne (hm.ino_inj halloc (walk_allocated hm hS) hino)

end LocalMemMeta

namespace MetaImpl
open LocalMemMeta

/-- A rename under an unknown parent throws and changes nothing. One of an entry to a directory outside of it does what it
    must exactly when the freed memory still holds the inode of the entry and the entry has no children. -/
theorem rename_moves_iff {opt : MetaOpt} {m : LocalMemMeta} (h : Reachable opt m) (freed : Inode) (srcPino dstPino : InodeID)
    (srcName dstName : Str) :
    (m.lookup srcPino = none ∨ m.lookup dstPino = none →
      ∃ e, rename freed srcPino srcName dstPino dstName m = .error e m) ∧
    ∀ p q src P Q, m.lookup srcPino = some p → m.lookup dstPino = some q → m.walkFrom P = some p → m.walkFrom Q = some q →
      (m.heap p).getChild srcName = some src → ¬ P ++ [srcName] <+: Q →
      (Renamed m (P ++ [srcName]) (Q ++ [dstName]) (rename freed srcPino srcName dstPino dstName m) ↔
        freed = (m.heap src).inode ∧ ∀ n, (m.heap src).getChild n = none) :=
  ⟨run_rename_unknown, fun _ _ _ _ _ hp hq hP hQ hsrc hout => renamed_iff h.inv hp hq hP hQ hsrc hout⟩

/-- A mount that has made the directory `d` and the file `d/f`. -/
def madeNested : LocalMemMeta :=
  (endState (((Request.create 2 ['f'] S_IFREG).prog ⟨0, 0, 60⟩ (s3Stor Log.client) 1).run
    ⟨(endState (((Request.create ROOT_INODE_ID ['d'] S_IFDIR).prog ⟨0, 0, 60⟩ (s3Stor Log.client) 1).run (newWorld []))).cache,
      [], ⟨0, 0⟩, noGarbage⟩)).cache

theorem madeNested_reachable : Reachable ⟨0, 0, 60⟩ madeNested :=
  ((Reachable.new ⟨0, 0⟩).request (s3Stor Log.client) 1 (.create ROOT_INODE_ID ['d'] S_IFDIR) [] ⟨0, 0⟩ noGarbage).request
    (s3Stor Log.client) 1 (.create 2 ['f'] S_IFREG) [] ⟨0, 0⟩ noGarbage

/-- The file moves to the root, when its freed inode is read unchanged. -/
theorem rename_moves_file : Renamed madeNested [['d'], ['f']] [['g']]
    (rename (madeNested.heap 2).inode 2 ['f'] ROOT_INODE_ID ['g'] madeNested) := by
  have hfile : ∀ n, (madeNested.heap 2).getChild n = none := by
    have hcount : (madeNested.heap 2).childCount = 0 := by decide +kernel
    have hchildren : (madeNested.heap 2).children = ∅ := AList.ext (List.eq_nil_of_length_eq_zero hcount)
    intro n
    rw [Dentry.getChild, hchildren]
    rfl
  have hmoves := (rename_moves_iff madeNested_reachable (madeNested.heap 2).inode 2 ROOT_INODE_ID ['f'] ['g']).2 1 0 2 [['d']] []
    (by decide +kernel) (by decide +kernel) (by decide +kernel) (by decide +kernel) (by decide +kernel) (by decide)
  exact hmoves.mpr ⟨rfl, hfile⟩

/-- The directory moves without its file, even when its freed inode is read unchanged. -/
theorem rename_loses_children : madeNested.walkFrom [['d'], ['f']] = some 2 ∧ ¬ Renamed madeNested [['d']] [['e']]
    (rename (madeNested.heap 1).inode ROOT_INODE_ID ['d'] ROOT_INODE_ID ['e'] madeNested) := by
  refine ⟨by decide +kernel, fun h => ?_⟩
  have hbelow := congrFun h.entries [['e'], ['f']]
  have hlost : (endState (rename (madeNested.heap 1).inode ROOT_INODE_ID ['d'] ROOT_INODE_ID ['e'] madeNested)).entries
      [['e'], ['f']] = none := by decide +kernel
  have hthere : (madeNested.entries.move [['d']] [['e']] [['e'], ['f']]).isSome = true := by decide +kernel
  rw [← hbelow, hlost] at hthere
  cases hthere

end MetaImpl

end Catfs
