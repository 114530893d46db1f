import Catfs.Theorems.Refresh

/-! # Loads of a directory

How a load ends is settled before it begins, by the children of the directory, their marks and the pages that the store
holds for it: whether its sweep finds a child to remove (`survives_load_iff`), whether it returns, and how many entries it
lists then (`load_count`). -/

namespace Catfs

open Lib MetaM LocalMemMeta
open EStateM (Result)

namespace LocalMemMeta
variable {m m' : LocalMemMeta} {a : Addr} {nodes : List FTreeNode}

/-- The entries `.` and `..` of the directory at `a`. -/
def dots (a : Addr) : List Dirent := [⟨['.'], a⟩, ⟨['.', '.'], a⟩]

/-- What `load_sub_dentries` lists for the directory at `a`: itself twice, and each of its children. -/
def listed (m : LocalMemMeta) (a : Addr) : List Dirent :=
  dots a ++ (m.heap a).children.entries.map fun e => { name := (m.heap e.2).name, inode := e.2 }

theorem length_listed : (m.listed a).length = 2 + (m.heap a).children.keys.length := by
  rw [listed, List.length_append, List.length_map, AList.keys, List.keys, List.length_map]
  rfl

theorem mem_keys_iff {n : Str} : n ∈ (m.heap a).children.keys ↔ ∃ ch, (m.heap a).getChild n = some ch := by
  rw [← AList.mem_keys, ← AList.lookup_isSome, Option.isSome_iff_exists]
  rfl

/-- A merge adds the names that were not there. -/
theorem Built.count (hb : Built a nodes m m') : (m'.heap a).children.keys.length =
    ((m.heap a).children.keys ++ nodes.map FTreeNode.name).dedup.length := by
  refine ((List.perm_ext_iff_of_nodup (AList.keys_nodup _) (List.nodup_dedup _)).mpr fun n => ?_).length_eq
  rw [List.mem_dedup, List.mem_append, List.mem_map, mem_keys_iff, mem_keys_iff]
  constructor
  · rintro ⟨ch, hch⟩
    exact (hb.origin n ch hch).imp (fun h => ⟨ch, h⟩) And.right
  · rintro (⟨ch, hch⟩ | ⟨node, hnode, rfl⟩)
    · exact ⟨ch, hb.child n ch hch⟩
    · obtain ⟨ch, hch, -⟩ := hb.listed node hnode
      exact ⟨ch, hch⟩

/-- A sweep that finds nothing to remove leaves the names. -/
theorem Swept.count (hs : Swept a m m') (h : m.NothingToSweep a) :
    (m'.heap a).children.keys.length = (m.heap a).children.keys.length := by
  refine ((List.perm_ext_iff_of_nodup (AList.keys_nodup _) (AList.keys_nodup _)).mpr fun n => ?_).length_eq
  rw [mem_keys_iff, mem_keys_iff]
  refine exists_congr fun ch => (hs.child a .start n ch).trans (and_iff_left_of_imp fun hch => ?_)
  exact h a n ch .start hch

end LocalMemMeta

namespace MetaImpl
variable {σ : Type} {st : Stor σ} {ino : InodeID} {a : Addr} {w w' : World σ} {fuel : Nat} {pre : Str}

/-! ### The pages of a directory -/

/-- The nodes of the pages under `pre`, from `marker` on, none when the store refuses one of at most `fuel` or one holds a
    name that is not under `pre`. -/
def pageNodes (st : Stor σ) (pre : Str) : Nat → Str → σ → Option (List FTreeNode)
  | 0, _, _ => none
  | fuel + 1, marker, t =>
    match st.listObjects { delimiter := slash, pre, max := 1000, marker } t with
    | .error _ _ => none
    | .ok resp t' =>
      match buildFtree pre resp with
      | none => none
      | some nodes => if resp.isTrunc then (nodes ++ ·) <$> pageNodes st pre fuel resp.nextMarker t' else some nodes

variable (st fuel pre) in
/-- The loop over the pages merges their nodes. -/
theorem run_refreshLoop_pageNodes (marker : Str) (hm : Inv w.cache) (ha : w.cache.lookup ino = some a) :
    match pageNodes st pre fuel marker w.stor with
    | some nodes => ∃ m' t', (refreshLoop st ino pre fuel marker).run w = .ok () ⟨m', t', w.now, w.garbage⟩ ∧
        Built a nodes w.cache m'
    | none => ∃ e w', (refreshLoop st ino pre fuel marker).run w = .error e w' := by
  induction fuel generalizing w marker with
  | zero => exact ⟨_, _, rfl⟩
  | succ fuel ih =>
    obtain ⟨m, t, now, garbage⟩ := w
    rw [pageNodes, refreshLoop]
    cases hlist : st.listObjects { delimiter := slash, pre, max := 1000, marker } t with
    | error e t' =>
      have hcall : (call (.list pre marker) (st.listObjects { delimiter := slash, pre, max := 1000, marker })).run
          ⟨m, t, now, garbage⟩ = .error e ⟨m, t', now, garbage⟩ := by
        simp only [call, Prog.run_lift, zoom, hlist]
      rw [Prog.run_bind_error hcall]
      exact ⟨_, _, rfl⟩
    | ok resp t' =>
      rw [Prog.run_bind_ok (run_call_ok hlist)]
      cases hft : buildFtree pre resp with
      | none =>
        simp only [hft]
        exact ⟨_, _, rfl⟩
      | some nodes =>
        obtain ⟨m₁, hbuild, hb⟩ := run_buildDentries now hm ha (flat_buildFtree hft)
        have hrun : (cache (.build ino (nodes.map FTreeNode.name)) fun now => LocalMemMeta.buildDentries now ino nodes).run
            ⟨m, t', now, garbage⟩ = .ok () ⟨m₁, t', now, garbage⟩ := run_cache_ok hbuild
        have hrest := ih (w := ⟨m₁, t', now, garbage⟩) resp.nextMarker hb.inv (hb.grow.index _ _ ha)
        simp only [hft]
        rw [Prog.run_bind_ok hrun]
        cases htr : resp.isTrunc with
        | true =>
          simp only [if_pos]
          cases hnodes : pageNodes st pre fuel resp.nextMarker t' with
          | none =>
            simp only [hnodes] at hrest
            exact hrest
          | some nodes' =>
            simp only [hnodes] at hrest
            obtain ⟨m', t'', hloop, hb'⟩ := hrest
            exact ⟨m', t'', hloop, hb.trans hb'⟩
        | false => exact ⟨m₁, t', rfl, hb⟩

/-- The nodes of the pages of the directory at `a`. -/
def dirNodes (st : Stor σ) (fuel : Nat) (a : Addr) (w : World σ) : Option (List FTreeNode) :=
  pageNodes st (w.cache.dirPrefix a) fuel [] w.stor

variable (st fuel) in
/-- A refresh merges the pages that come and sweeps after them. -/
theorem run_refresh_dirNodes (hm : Inv w.cache) (ha : a < w.cache.heapNext) :
    match dirNodes st fuel a w with
    | some nodes => ∃ m₁ m' t', Built a nodes w.cache m₁ ∧ Swept a m₁ m' ∧
        (refreshSubDentries st fuel a).run w = .ok () ⟨m', t', w.now, w.garbage⟩ ∧
        (Survives (refreshSubDentries st fuel a) w ↔ m₁.NothingToSweep a)
    | none => (∃ e w', (refreshSubDentries st fuel a).run w = .error e w') ∧ Survives (refreshSubDentries st fuel a) w := by
  have hpre : (pathWithSlash a : MetaM σ Str).run w = .ok (w.cache.dirPrefix a) w := run_pathWithSlash hm ha
  have hread : (readDentry a : MetaM σ Dentry).run w = .ok (w.cache.heap a) w := run_readDentry
  have hloop := run_refreshLoop_pageNodes st fuel (w.cache.dirPrefix a) [] hm (hm.index a ha)
  rw [dirNodes]
  cases hnodes : pageNodes st (w.cache.dirPrefix a) fuel [] w.stor with
  | none =>
    simp only [hnodes] at hloop
    obtain ⟨e, w', hrun⟩ := hloop
    refine ⟨⟨e, w', ?_⟩, survives_refresh_error hpre hrun⟩
    rw [refreshSubDentries, Prog.run_bind_ok hpre, Prog.run_bind_ok hread, Prog.run_bind_error hrun]
  | some nodes =>
    simp only [hnodes] at hloop
    obtain ⟨m₁, t', hrun, hb⟩ := hloop
    obtain ⟨m', hsweep, hs⟩ := run_clearUnsyncDentry w.now hb.inv (Nat.lt_of_lt_of_le ha hb.grow.next)
    refine ⟨m₁, m', t', hb, hs, ?_, survives_refresh hpre hrun⟩
    rw [refreshSubDentries, Prog.run_bind_ok hpre, Prog.run_bind_ok hread, Prog.run_bind_ok hrun]
    exact run_cache_ok hsweep

/-! ### How a load ends -/

/-- The children of the directory at `a` have to be listed. -/
def stale (a : Addr) (w : World σ) : Bool := !(w.cache.heap a).complete || (w.cache.heap a).isExpired w.now

theorem run_loadSubDentries_none (h : w.cache.lookup ino = none) :
    (loadSubDentries st fuel ino).run w = .error .enoent w := by
  have hget : (getDentry ino : MetaM σ _).run w = .ok none w := run_cache_ok (by rw [run_getDentry, h])
  rw [loadSubDentries, Prog.run_bind_ok hget]
  rfl

theorem run_loadSubDentries (ha : w.cache.lookup ino = some a) : (loadSubDentries st fuel ino).run w =
    if stale a w then (do
      refreshSubDentries st fuel a
      listChildren a : MetaM σ _).run w
    else .ok (w.cache.listed a) w := by
  have hget : (getDentry ino : MetaM σ _).run w = .ok (some a) w := run_cache_ok (by rw [run_getDentry, ha])
  have hneeds : (needsRefresh a : MetaM σ _).run w = .ok (stale a w) w := rfl
  rw [loadSubDentries, Prog.run_bind_ok hget]
  dsimp only
  rw [Prog.run_bind_ok hneeds]
  cases stale a w <;> rfl

theorem run_listChildren : (listChildren a : MetaM σ _).run w = .ok (w.cache.listed a) w := rfl

theorem sweepless_listChildren : Sweepless (listChildren a : MetaM σ _) := (sweepless_lift (by simp)).bind fun _ => trivial

/-- The load meets no child without a mark: it makes no sweep, or one that removes nothing. -/
def SparesAll (st : Stor σ) (fuel : Nat) (a : Addr) (w : World σ) : Prop :=
  stale a w = true → ∀ nodes, dirNodes st fuel a w = some nodes →
    w.cache.SweepsNothing a fun n => ∃ node ∈ nodes, node.name = n

/-- A load survives exactly when the state before it says so. -/
theorem survives_load_iff (hm : Inv w.cache) (ha : w.cache.lookup ino = some a) :
    Survives (loadSubDentries st fuel ino) w ↔ SparesAll st fuel a w := by
  have hget : (getDentry ino : MetaM σ _).run w = .ok (some a) w := run_cache_ok (by rw [run_getDentry, ha])
  have hneeds : (needsRefresh a : MetaM σ _).run w = .ok (stale a w) w := rfl
  have hfirst : Survives (getDentry ino : MetaM σ _) w := (sweepless_lift (by simp)).survives
  have hcheck : Survives (needsRefresh a : MetaM σ _) w := (sweepless_lift (by simp)).survives
  rw [loadSubDentries, Survives, Prog.along_bind_ok hget, and_iff_right hfirst]
  dsimp only
  rw [Prog.along_bind_ok hneeds, and_iff_right hcheck, SparesAll]
  cases hstale : stale a w with
  | false => exact iff_of_true sweepless_listChildren.survives fun h => by cases h
  | true =>
    have hrefresh := run_refresh_dirNodes st fuel hm (hm.indexed _ _ ha).1
    rw [if_pos rfl]
    cases hnodes : dirNodes st fuel a w with
    | none =>
      simp only [hnodes] at hrefresh
      obtain ⟨⟨e, w', hrun⟩, hsurvives⟩ := hrefresh
      rw [Prog.along_bind_error hrun]
      exact iff_of_true hsurvives fun _ _ h => by cases h
    | some nodes =>
      simp only [hnodes] at hrefresh
      obtain ⟨m₁, m', t', hb, -, hrun, hsurvives⟩ := hrefresh
      rw [Prog.along_bind_ok hrun, and_iff_left sweepless_listChildren.survives]
      refine hsurvives.trans ((hb.nothingToSweep_iff hm).trans ⟨fun h _ nodes' h' => ?_, fun h => h rfl nodes rfl⟩)
      obtain rfl := Option.some.inj h'
      exact h

theorem survives_load_none (h : w.cache.lookup ino = none) : Survives (loadSubDentries st fuel ino) w := by
  have hget : (getDentry ino : MetaM σ _).run w = .ok none w := run_cache_ok (by rw [run_getDentry, h])
  have hfirst : Survives (getDentry ino : MetaM σ _) w := (sweepless_lift (by simp)).survives
  rw [loadSubDentries, Survives, Prog.along_bind_ok hget]
  exact ⟨hfirst, Prog.along_fail _⟩

/-- How many entries a load lists: the directory itself twice, and its children with the names that the pages add. -/
def loadCount (st : Stor σ) (fuel : Nat) (a : Addr) (w : World σ) : Option Nat :=
  if stale a w then
    (dirNodes st fuel a w).map fun nodes => 2 + ((w.cache.heap a).children.keys ++ nodes.map FTreeNode.name).dedup.length
  else some (2 + (w.cache.heap a).children.keys.length)

theorem load_count (hm : Inv w.cache) (ha : w.cache.lookup ino = some a) (hspares : SparesAll st fuel a w) :
    match loadCount st fuel a w with
    | some n => ∃ ds w', (loadSubDentries st fuel ino).run w = .ok ds w' ∧ ds.length = n
    | none => ∃ e w', (loadSubDentries st fuel ino).run w = .error e w' := by
  rw [run_loadSubDentries ha, loadCount]
  cases hstale : stale a w with
  | false => exact ⟨_, _, rfl, length_listed⟩
  | true =>
    have hrefresh := run_refresh_dirNodes st fuel hm (hm.indexed _ _ ha).1
    rw [if_pos rfl, if_pos rfl]
    cases hnodes : dirNodes st fuel a w with
    | none =>
      simp only [hnodes] at hrefresh
      obtain ⟨⟨e, w', hrun⟩, -⟩ := hrefresh
      exact ⟨e, w', by rw [Prog.run_bind_error hrun]⟩
    | some nodes =>
      simp only [hnodes] at hrefresh
      obtain ⟨m₁, m', t', hb, hs, hrun, -⟩ := hrefresh
      refine ⟨_, _, by rw [Prog.run_bind_ok hrun, run_listChildren], ?_⟩
      rw [length_listed, hs.count ((hb.nothingToSweep_iff hm).mpr (hspares hstale nodes hnodes)), hb.count]

end MetaImpl

end Catfs
