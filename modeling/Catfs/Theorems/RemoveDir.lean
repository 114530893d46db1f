import Catfs.Theorems.FailedCalls
import Catfs.Theorems.Paths

/-! # Removing a directory

`remove_dentry` on a directory looks at the children that are cached, and not at the bucket. It refuses a directory
that is not empty, and empties one that is, exactly when the two agree on whether there is anything below it. -/

namespace Catfs

open Lib MetaM LocalMemMeta
open EStateM (Result)

/-- There is an object below the directory `path` besides its own. -/
def Bucket.Nested (b : Bucket) (path : Str) : Prop := ∃ k, k ≠ [] ∧ b.Holds (path ++ slash ++ k)

namespace MetaImpl
variable {σ α : Type} {opt : MetaOpt} {pino : InodeID} {name : Str}

/-- The entry `name` of the directory `pino` is cached with children of its own. -/
def CachedChildren (m : LocalMemMeta) (pino : InodeID) (name : Str) : Prop :=
  ∃ p a, m.lookup pino = some p ∧ (m.heap p).getChild name = some a ∧ (m.heap a).childCount ≠ 0

/-- How `remove_dentry` is to end on the directory `path`, the entry `name` of `pino`, when the cache is `m` and the
    bucket `b`: it refuses and changes nothing if there is anything below the directory, and else removes the entry,
    after which no key begins with the path. -/
inductive RemovesDir (view : σ → Bucket) (m : LocalMemMeta) (b : Bucket) (pino : InodeID) (name path : Str) :
    Result Err (World σ) Unit → Prop where
  | refused {s : World σ} (nested : b.Nested path) (bucket : view s.stor = b) (tree : SameTree m s.cache) :
      RemovesDir view m b pino name path (.error .enotempty s)
  | removed {s : World σ} (empty : ¬ b.Nested path) (bucket : view s.stor = b.delete (path ++ slash))
      (entry : ∃ p, s.cache.lookup pino = some p ∧ (s.cache.heap p).getChild name = none)
      (gone : ∀ k, ¬ (view s.stor).Holds (path ++ slash ++ k)) : RemovesDir view m b pino name path (.ok () s)

/-! ### What the lookup finds -/

section
variable {β : Type} {view : σ → β} {st : Stor σ} {s₀ : World σ} {a p : Addr}

/-- After the lookup of `name` in the directory at `p`, which is `pino`: the dentry found was cached and the tree is as
    it was, or it is new and has no children. -/
structure LookedUp (view : σ → β) (s₀ : World σ) (pino : InodeID) (name : Str) (a : Addr) (s : World σ) : Prop where
  inv : Inv s.cache
  view : view s.stor = view s₀.stor
  found : ∃ p, s₀.cache.lookup pino = some p ∧ s.cache.lookup pino = some p ∧
    ((s₀.cache.heap p).getChild name = some a ∧ Idle s₀.cache s.cache ∨
      (s₀.cache.heap p).getChild name = none ∧ (s.cache.heap a).childCount = 0)

/-- Every end of `p` that returns, from a state with `P`, has `Q`. -/
abbrev Returning (P : World σ → Prop) (p : MetaM σ α) (Q : α → World σ → Prop) : Prop :=
  Prog.Triple (fun _ _ => True) (fun _ => True) P p Q

/-- Nothing was changed since `s₀`, where the directory `pino` is at `p` and has no child `name`. -/
def Absent (view : σ → β) (s₀ : World σ) (pino : InodeID) (name : Str) (p : Addr) (s : World σ) : Prop :=
  Before view s₀ s ∧ s₀.cache.lookup pino = some p ∧ (s₀.cache.heap p).getChild name = none

theorem Absent.lookup {s : World σ} (h : Absent view s₀ pino name p s) : s.cache.lookup pino = some p :=
  h.1.2.cache.grow.index _ _ h.2.1

theorem absent_quiet {q : MetaM σ α} (hq : Quiet view q) :
    Returning (Absent view s₀ pino name p) q fun _ => Absent view s₀ pino name p :=
  Prog.triple_of_preserves hq (fun _ hs => hs.1.1)
    (fun _ _ hs hm hr => ⟨⟨hm, trans_of (Aside view) hs.1.2 hr⟩, hs.2⟩) fun _ _ => trivial

/-- A dentry made for the name has no children. -/
theorem looked_insert {l : MetaAct} {f : Timespec → LocalM Addr} (hf : MakesChild pino name f) :
    Returning (Absent view s₀ pino name p) (cache l f) fun a => LookedUp view s₀ pino name a := by
  refine Prog.triple_lift fun s hs _ => ?_
  have hinv : Inv s.cache := hs.1.1
  have hp := hs.lookup
  have halloc := (hinv.indexed _ _ hp).1
  obtain ⟨inode, hino, hrun⟩ := hf.run hinv hp s.now
  have hfresh : Fresh s.cache.issue inode.ino := hino ▸ hinv.fresh
  simp only [onCache, zoom, hrun]
  refine ⟨hinv.issue.link halloc hfresh, hs.1.2.view, p, hs.2.1, ?_, .inr ⟨hs.2.2, ?_⟩⟩
  · exact (Grow.issue.trans (.link hinv.issue halloc hfresh)).index _ _ hp
  · have hnew := heap_link_new (m := s.cache.issue) name inode halloc
    rw [heapNext_issue] at hnew
    simp only [hnew]
    rfl

theorem looked_incTtl {b : Addr} : Returning (LookedUp view s₀ pino name a) (incTtl opt b) fun _ => LookedUp view s₀ pino name a := by
  refine Prog.triple_lift fun s hs _ => ?_
  have hstill : Still s.cache (s.cache.set b (·.incTtl s.now opt.dcacheTimeout)) :=
    .set Mild.incTtl (fun _ => rfl) fun _ => rfl
  have hidle : Idle s.cache (s.cache.set b (·.incTtl s.now opt.dcacheTimeout)) := ⟨hstill, rfl⟩
  obtain ⟨p, hp₀, hp, hcase⟩ := hs.found
  refine ⟨hs.inv.set Mild.incTtl, hs.view, p, hp₀, hp, ?_⟩
  rcases hcase with ⟨hchild, h⟩ | ⟨hnone, hcount⟩
  · exact .inl ⟨hchild, trans_of Idle h hidle⟩
  · refine .inr ⟨hnone, ?_⟩
    rw [Dentry.childCount, hstill.children a]
    exact hcount

theorem looked_findRemote (hst : Reads st view) :
    Returning (Absent view s₀ pino name p) (findRemote opt st pino name) fun r s =>
      ∀ a, r = some a → LookedUp view s₀ pino name a s := by
  have hdir : Returning (Absent view s₀ pino name p) (getDentry pino) fun r s => r = some p ∧ Absent view s₀ pino name p s :=
    Prog.triple_lift fun s hs _ => ⟨hs.lookup, hs⟩
  refine hdir.bind fun r => Prog.Triple.of_fact fun hr => ?_
  obtain rfl := hr
  refine (absent_quiet (quiet_getRemoteObj hst)).bind fun found => ?_
  obtain ⟨obj, exist, isDir⟩ := found
  cases exist with
  | true =>
    refine (looked_insert makes_fromObj).bind fun d => looked_incTtl.bind fun _ => Prog.triple_pure fun s hs a ha => ?_
    exact Option.some.inj ha ▸ hs
  | false =>
    refine (absent_quiet quiet_pathWithSlash).bind fun pre =>
      (absent_quiet (quiet_isRemoteDirExist hst)).bind fun exist => ?_
    cases exist with
    | false => exact Prog.triple_pure fun s hs a ha => by cases ha
    | true =>
      have hread : Returning (Absent view s₀ pino name p) (readDentry p) fun d s =>
          d.inode.ino = pino ∧ Absent view s₀ pino name p s :=
        Prog.triple_lift fun s hs _ => ⟨(hs.1.1.indexed _ _ hs.lookup).2, hs⟩
      have hvirtual : Returning (Absent view s₀ pino name p) (addVirtualDir opt p name) fun a s =>
          LookedUp view s₀ pino name a s := by
        refine hread.bind fun d => Prog.Triple.of_fact fun hd => ?_
        obtain rfl := hd
        exact (looked_insert makes_new).bind fun a => looked_incTtl.bind fun _ => Prog.triple_pure fun _ hs => hs
      exact (hvirtual.post fun _ _ h a ha => Option.some.inj ha ▸ h).map

variable (opt pino name s₀) in
theorem looked_findDentry (hst : Reads st view) (hs₀ : Inv s₀.cache) :
    Returning (· = s₀) (findDentry opt st pino name false) fun r s => ∀ a, r = some a → LookedUp view s₀ pino name a s := by
  have hfind : Returning (· = s₀) (cache (.find pino name) fun _ => LocalMemMeta.findDentry pino name) fun r s =>
      ∃ p, s₀.cache.lookup pino = some p ∧ r = (s₀.cache.heap p).getChild name ∧ s = s₀ := by
    refine Prog.triple_lift fun s hs _ => ?_
    obtain rfl := hs
    simp only [onCache, zoom]
    cases hp : s.cache.lookup pino with
    | some p =>
      rw [run_findDentry hp]
      exact ⟨p, rfl, rfl, rfl⟩
    | none =>
      rw [run_findDentry_none hp]
      trivial
  refine hfind.bind fun r => Prog.triple_exists fun p => Prog.Triple.of_fact fun hp => Prog.Triple.of_fact fun hr => ?_
  cases r with
  | none =>
    have hstart : ∀ s, s = s₀ → Absent view s₀ pino name p s := by
      intro s hs
      rw [hs]
      exact ⟨⟨hs₀, refl_of (Aside view) s₀⟩, hp, hr.symm⟩
    exact (looked_findRemote hst).pre hstart
  | some a =>
    -- A revalidation changes attributes and the expiry time.
    have hstart : ∀ s, s = s₀ → Before view s₀ s := by
      intro s hs
      rw [hs]
      exact ⟨hs₀, refl_of (Aside view) s₀⟩
    have hquiet : ∀ {β : Type} {q : MetaM σ β}, Quiet view q → Returning (Before view s₀) q fun _ => Before view s₀ := fun hq =>
      Prog.triple_of_preserves hq (fun _ hs => hs.1)
        (fun _ _ hs hm hr => ⟨hm, trans_of (Aside view) hs.2 hr⟩) fun _ _ => trivial
    have hlooked : ∀ s, Before view s₀ s → LookedUp view s₀ pino name a s := fun s hs =>
      ⟨hs.1, hs.2.view, p, hp, hs.2.cache.grow.index _ _ hp, .inl ⟨hr.symm, hs.2.cache⟩⟩
    refine ((hquiet (quiet_look rfl)).pre hstart).bind fun expired => ?_
    cases expired with
    | false => exact Prog.triple_pure fun s hs b hb => Option.some.inj hb ▸ hlooked s hs
    | true =>
      refine ((hquiet (quiet_revalidate hst)).returns returns_revalidate).post fun r s hs b hb => ?_
      obtain ⟨hra, hs⟩ := hs
      obtain rfl : a = b := Option.some.inj (hra.symm.trans hb)
      exact hlooked s hs

end

/-! ### The removal -/

section
variable {c : S3Client σ} {view : σ → Bucket} {m : LocalMemMeta} {t : σ} {now : Timespec} {garbage : Garbage}
  {a : Addr} {s : World σ} {path : Str}

/-- How the removal of a directory ends once it is found: refused if it has cached children, and else done. -/
theorem run_removeDentry_dir {s₀ : World σ} (hc : c.Serves view)
    (hfind : (findDentry opt (s3Stor c) pino name false).run s₀ = .ok (some a) ⟨m, t, now, garbage⟩)
    (hdir : (m.heap a).isDir = true) (hpath : m.fullPath a = some path) :
    ((m.heap a).childCount ≠ 0 ∧
      (removeDentry opt (s3Stor c) pino name).run s₀ = .error .enotempty ⟨m, t, now, garbage⟩) ∨
    ((m.heap a).childCount = 0 ∧ ∀ p, m.lookup pino = some p → ∃ t', view t' = (view t).delete (path ++ slash) ∧
      (removeDentry opt (s3Stor c) pino name).run s₀ =
        .ok () ⟨m.set p fun d => { d with children := d.children.erase name }, t', now, garbage⟩) := by
  by_cases hcount : (m.heap a).childCount = 0
  · refine .inr ⟨hcount, fun p hp => ?_⟩
    obtain ⟨t', hdel, hv⟩ := hc.delete t (path ++ slash)
    refine ⟨t', hv, ?_⟩
    have hcall : (s3Stor c).deleteFile { objKey := path ++ slash } t = .ok () t' := by
      simp only [s3Stor, orServerError, hdel]
    rw [removeDentry, Prog.run_bind_ok hfind]
    simp only
    rw [fullPath, Prog.run_bind_ok (run_cache_ok (run_getFullPath hpath)), Prog.run_bind_ok run_readDentry, if_pos hdir,
      if_neg (not_not.mpr hcount),
      Prog.run_bind_ok (run_call_ok hcall), run_cache_ok (LocalMemMeta.run_removeDentry hp)]
  · refine .inl ⟨hcount, ?_⟩
    rw [removeDentry, Prog.run_bind_ok hfind]
    simp only
    rw [fullPath, Prog.run_bind_ok (run_cache_ok (run_getFullPath hpath)), Prog.run_bind_ok run_readDentry, if_pos hdir,
      if_pos hcount, Prog.run_fail]

/-- The removal of a directory goes as it should exactly when its entry is cached with children of its own if and only
    if the bucket holds anything below it. -/
theorem removes_iff_cached_truly (hm : Reachable opt m) (hc : c.Serves view)
    (hfind : (findDentry opt (s3Stor c) pino name false).run ⟨m, t, now, garbage⟩ = .ok (some a) s)
    (hdir : (s.cache.heap a).isDir = true) (hpath : s.cache.fullPath a = some path) :
    RemovesDir view m (view t) pino name path ((removeDentry opt (s3Stor c) pino name).run ⟨m, t, now, garbage⟩) ↔
      (CachedChildren m pino name ↔ (view t).Nested path) := by
  have hlooked := looked_findDentry opt pino name ⟨m, t, now, garbage⟩ (reads_serves hc) hm.inv _ rfl Prog.guarded_trivial
  rw [hfind] at hlooked
  obtain ⟨hinv, hview, p, hp₀, hp, hcase⟩ := hlooked a rfl
  have hcached : CachedChildren m pino name ↔ (s.cache.heap a).childCount ≠ 0 := by
    constructor
    · rintro ⟨q, b, hq, hb, hcount⟩
      obtain rfl : p = q := Option.some.inj (hp₀.symm.trans hq)
      rcases hcase with ⟨hchild, hidle⟩ | ⟨hnone, -⟩
      · obtain rfl : a = b := Option.some.inj (hchild.symm.trans hb)
        rwa [Dentry.childCount, hidle.children a]
      · exact absurd (hnone.symm.trans hb) (by simp)
    · intro hcount
      rcases hcase with ⟨hchild, hidle⟩ | ⟨-, hzero⟩
      · rw [Dentry.childCount, hidle.children a] at hcount
        exact ⟨p, a, hp₀, hchild, hcount⟩
      · exact absurd hzero hcount
  rcases run_removeDentry_dir hc hfind hdir hpath with ⟨hcount, hrun⟩ | ⟨hcount, hrun⟩
  · rw [hrun]
    constructor
    · intro h
      cases h with
      | refused nested => exact ⟨fun _ => nested, fun _ => hcached.mpr hcount⟩
    · intro h
      rcases hcase with ⟨-, hidle⟩ | ⟨-, hzero⟩
      · exact .refused (h.mp (hcached.mpr hcount)) hview (hidle.sameTree hm.inv hinv)
      · exact absurd hzero hcount
  · obtain ⟨t', hv, hrun⟩ := hrun p hp
    have hnot : ¬ CachedChildren m pino name := fun h => hcached.mp h hcount
    rw [hview] at hv
    rw [hrun]
    constructor
    · intro h
      cases h with
      | removed empty => exact ⟨fun h => absurd h hnot, fun h => absurd h empty⟩
    · intro h
      have hempty : ¬ (view t).Nested path := fun hn => hnot (h.mpr hn)
      refine .removed hempty hv ⟨p, hp, ?_⟩ fun k hk => ?_
      · simp [Dentry.getChild]
      · simp only [hv, Bucket.Holds, Bucket.delete, Function.update_apply] at hk
        split at hk
        · cases hk
        · rename_i hne
          refine hempty ⟨k, ?_, hk⟩
          rintro rfl
          exact hne (List.append_nil _)

end

/-! ### Two directories -/

def throws : Result Err (World σ) Unit → Bool
  | .ok _ _ => false
  | .error _ _ => true

theorem RemovesDir.throws_of_nested {view : σ → Bucket} {m : LocalMemMeta} {b : Bucket} {path : Str}
    {r : Result Err (World σ) Unit} (h : RemovesDir view m b pino name path r) (hn : b.Nested path) : throws r = true := by
  cases h with
  | refused => rfl
  | removed empty => exact absurd hn empty

/-- The lookup found an entry of this kind at `path`. -/
def foundEntry (isDir : Bool) (path : Str) : Result Err (World σ) (Option Addr) → Bool
  | .ok (some a) s => decide ((s.cache.heap a).isDir = isDir) && decide (s.cache.fullPath a = some path)
  | _ => false

theorem foundEntry_spec {isDir : Bool} {path : Str} {r : Result Err (World σ) (Option Addr)} (h : foundEntry isDir path r = true) :
    ∃ a s, r = .ok (some a) s ∧ (s.cache.heap a).isDir = isDir ∧ s.cache.fullPath a = some path := by
  cases r with
  | error e s => cases h
  | ok d s =>
    cases d with
    | none => cases h
    | some a =>
      obtain ⟨hkind, hpath⟩ := Bool.and_eq_true_iff.mp h
      exact ⟨a, s, rfl, of_decide_eq_true hkind, of_decide_eq_true hpath⟩

/-- A directory that only its own key makes is removed. -/
theorem removes_markedDir : RemovesDir Log.bucket newCache (Log.holding ['d', '/']).bucket ROOT_INODE_ID ['d'] ['d']
    ((removeDentry ⟨0, 0, 60⟩ (s3Stor Log.client) ROOT_INODE_ID ['d']).run (newWorld (Log.holding ['d', '/']))) := by
  have hfound : foundEntry true ['d'] ((findDentry ⟨0, 0, 60⟩ (s3Stor Log.client) ROOT_INODE_ID ['d'] false).run
      (newWorld (Log.holding ['d', '/']))) = true := by decide +kernel
  obtain ⟨a, s, hfind, hdir, hpath⟩ := foundEntry_spec hfound
  have hcached : ¬ CachedChildren newCache ROOT_INODE_ID ['d'] := by
    rintro ⟨p, b, hp, hb, -⟩
    obtain rfl : 0 = p := Option.some.inj hp
    cases hb
  have hnested : ¬ Bucket.Nested (Log.holding ['d', '/']).bucket ['d'] := by
    rintro ⟨k, hne, hk⟩
    exact hne (List.append_right_eq_self.mp (Log.bucket_holding hk))
  exact (removes_iff_cached_truly (show Reachable ⟨0, 0, 60⟩ newCache from .new ⟨0, 0⟩) Log.client_serves hfind hdir hpath).mpr
    ⟨fun h => absurd h hcached, fun h => absurd h hnested⟩

/-- A directory that only the key of a file in it makes has no cached children when it is first looked up: it is
    removed, and the file stays. -/
theorem nested_dir_removed : ∃ a s, (findDentry ⟨0, 0, 60⟩ (s3Stor Log.client) ROOT_INODE_ID ['d'] false).run
      (newWorld (Log.holding ['d', '/', 'x'])) = .ok (some a) s ∧
    (s.cache.heap a).isDir = true ∧ s.cache.fullPath a = some ['d'] ∧
    ¬ RemovesDir Log.bucket newCache (Log.holding ['d', '/', 'x']).bucket ROOT_INODE_ID ['d'] ['d']
      ((removeDentry ⟨0, 0, 60⟩ (s3Stor Log.client) ROOT_INODE_ID ['d']).run (newWorld (Log.holding ['d', '/', 'x']))) := by
  have hfound : foundEntry true ['d'] ((findDentry ⟨0, 0, 60⟩ (s3Stor Log.client) ROOT_INODE_ID ['d'] false).run
      (newWorld (Log.holding ['d', '/', 'x']))) = true := by decide +kernel
  obtain ⟨a, s, hfind, hdir, hpath⟩ := foundEntry_spec hfound
  refine ⟨a, s, hfind, hdir, hpath, fun h => ?_⟩
  have hnested : Bucket.Nested (Log.holding ['d', '/', 'x']).bucket ['d'] := by
    refine ⟨['x'], by decide, ?_⟩
    rw [Bucket.Holds]
    decide
  exact absurd (h.throws_of_nested hnested) (by decide +kernel)

end MetaImpl

end Catfs
