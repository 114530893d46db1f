import Catfs.Theorems.FailedCalls
import Catfs.Theorems.Handles
import Catfs.Theorems.PageCuts
import Catfs.Theorems.RequestKeys

/-! # A second mount

The object that a new entry leaves in the bucket tells another mount what kind of entry it is, whether that mount looks the
name up or lists the directory. -/

namespace Catfs

open Lib MetaM LocalMemMeta
open EStateM (Result)

/-- The bucket has the object of an entry of that kind at `path`, and no object that tells otherwise. -/
structure Bucket.Marks (b : Bucket) (path : Str) (isDir : Bool) : Prop where
  holds : b.Holds (entryKey path isDir)
  alone : isDir = true → ¬ b.Holds path

theorem Bucket.marks_put {b : Bucket} {path : Str} (isDir : Bool) (h : ¬ b.Holds path) :
    (b.put (entryKey path isDir) []).Marks path isDir where
  holds := by rw [Holds, put, Function.update_self, Option.isSome_some]
  alone hd := by
    have hne : path ≠ entryKey path isDir := by
      rw [hd]
      exact ne_of_lt (lt_append (by simp [slash]))
    rw [Holds, put, Function.update_of_ne hne]
    exact h

/-- The kind in the type bits of a mode. -/
theorem kind_of_type {mode : Mode} (h : HasType mode) : (mode &&& S_IFDIR != 0) = decide (fileType mode = S_IFDIR) := by
  rw [and_dir]
  rcases h with h | h <;> rw [h] <;> decide

namespace LocalMemMeta

/-- `n` is a child of `p`, of that kind. -/
def HasKind (m : LocalMemMeta) (p : Addr) (n : Str) (isDir : Bool) : Prop :=
  ∃ ch, (m.heap p).getChild n = some ch ∧ (m.heap ch).isDir = isDir

theorem hasKind_of_childInfo {m : LocalMemMeta} {p : Addr} {n : Str} {info : ChildInfo} (h : m.childInfo p n = some info) :
    m.HasKind p n info.isDir := by
  obtain ⟨ch, hch, hinfo⟩ := Option.map_eq_some_iff.mp h
  exact ⟨ch, hch, congrArg ChildInfo.isDir hinfo⟩

end LocalMemMeta

namespace MetaImpl
variable {σ : Type} {c : S3Client σ} {view : σ → Bucket} {b : Bucket} {opt : MetaOpt} {s s₁ s₂ : World σ} {m : LocalMemMeta}
  {t t' : σ} {pino ino : InodeID} {p a d : Addr} {n : Str} {mode : Mode} {isDir : Bool} {cut : List (List Str)}

/-! ### The new entry -/

/-- A lookup that finds nothing changes nothing, and finds nothing again. -/
theorem find_nothing (hc : c.Serves view) (ho : c.InOrder view) (hs : CacheInv s) (hp : s.cache.lookup pino = some p)
    (hdir : (s.cache.heap p).isDir = true) (hfind : (findDentry opt (s3Stor c) pino n false).run s = .ok none s₁) :
    CacheInv s₁ ∧ s₁.cache = s.cache ∧ view s₁.stor = view s.stor ∧ ¬ (view s.stor).Holds (s.cache.dirPrefix p ++ n) ∧
      ∃ s₂, (findDentry opt (s3Stor c) pino n false).run s₁ = .ok none s₂ := by
  have hnone : (s.cache.heap p).getChild n = none := by
    cases ha : (s.cache.heap p).getChild n with
    | none => rfl
    | some a => cases returns_cached hp ha hfind
  have hlookup : Edited (LookupEdit opt (s3Stor c) s pino n) s (· = s) (findDentry opt (s3Stor c) pino n false) _ :=
    edited_findDentry hs
  have hedited := hlookup s ⟨⟨hs, rfl, .refl⟩, rfl⟩
  rw [hfind] at hedited
  have hcache : s₁.cache = s.cache := (hedited.2 rfl).1
  have hsought : ThrowsEarly view s (Before view s) (findDentry opt (s3Stor c) pino n false) (Sought view s pino) :=
    early_findDentry (reads_serves hc)
  have hkept := hsought s ⟨hs, refl_of (Aside view) s⟩ Prog.guarded_trivial
  rw [hfind] at hkept
  have hview : view s₁.stor = view s.stor := hkept.1.view
  obtain ⟨d, s', hrun, hkind⟩ := run_findDentry_absent opt s.stor s.now s.garbage hc ho hs hp hdir hnone
  obtain ⟨rfl, rfl⟩ := Result.ok.inj (hfind.symm.trans hrun)
  have hno : ∀ k, ¬ Kind (view s.stor) (s.cache.dirPrefix p ++ n) k := by
    intro k hk
    obtain ⟨ch, hch, -⟩ := (hkind k).mpr hk
    cases hch
  refine ⟨hedited.1.inv, hcache, hview, fun h => hno false (.inl ⟨rfl, h⟩), ?_⟩
  obtain ⟨m₁, t₁, now₁, garbage₁⟩ := s₁
  obtain rfl : m₁ = s.cache := hcache
  obtain ⟨d, s₂, hrun₂, hkind₂⟩ := run_findDentry_absent opt t₁ now₁ garbage₁ hc ho hs hp hdir hnone
  cases d with
  | none => exact ⟨s₂, hrun₂⟩
  | some ch =>
    have hk := (hkind₂ _).mp ⟨ch, rfl, rfl⟩
    rw [hview] at hk
    exact absurd hk (hno _)

variable (mode) in
/-- A creation whose own lookup finds nothing puts the object of the entry and makes its dentry. -/
theorem run_createDentry_new (hc : c.Serves view) (hs : CacheInv s) (hp : s.cache.lookup pino = some p) (hne : n ≠ [])
    (hfind : (findDentry opt (s3Stor c) pino n false).run s = .ok none s₁) (hcache : s₁.cache = s.cache) : ∃ t',
      (createDentry opt (s3Stor c) pino n mode).run s = .ok s.cache.heapNext
        ⟨s.cache.issue.link p n (s.cache.newInode s₁.now mode (s.cache.heap p).inode.gid (s.cache.heap p).inode.uid), t',
          s₁.now, s₁.garbage⟩ ∧
      view t' = (view s₁.stor).put (entryKey (s.cache.dirPrefix p ++ n) (mode &&& S_IFDIR != 0)) [] := by
  obtain ⟨m, t, now, garbage⟩ := s₁
  obtain rfl : m = s.cache := hcache
  have halloc := (hs.indexed _ _ hp).1
  have hget : (getDentry pino : MetaM σ _).run ⟨s.cache, t, now, garbage⟩ = .ok (some p) ⟨s.cache, t, now, garbage⟩ :=
    run_getDentry_some hp
  have hderef : (deref (some p) : MetaM σ _).run ⟨s.cache, t, now, garbage⟩ = .ok p ⟨s.cache, t, now, garbage⟩ := rfl
  have hkey : (newKey p n mode : MetaM σ _).run ⟨s.cache, t, now, garbage⟩ =
      .ok (s.cache.dirPrefix p ++ (n ++ keyEnd mode)) ⟨s.cache, t, now, garbage⟩ := run_newKey hs halloc
  have hnil : s.cache.dirPrefix p ++ (n ++ keyEnd mode) ≠ [] := by simp [hne]
  obtain ⟨t', hput, hview⟩ := hc.put t _ [] hnil
  have hcall : ∀ metaData, (s3Stor c).putFile
      { objKey := s.cache.dirPrefix p ++ (n ++ keyEnd mode), buf := none, size := 0, metaData } t = .ok () t' := by
    intro metaData
    simp only [s3Stor, orServerError, Option.getD_none, List.take_nil, hput]
  rw [← List.append_assoc, append_keyEnd] at hview
  refine ⟨t', ?_, hview⟩
  rw [createDentry, Prog.run_bind_ok hfind]
  dsimp only
  rw [Prog.run_bind_ok hget, Prog.run_bind_ok hderef, Prog.run_bind_ok hkey, Prog.run_bind_ok run_readDentry,
    Prog.run_bind_ok (run_call_ok (hcall _))]
  refine run_cache_ok ?_
  rw [bind_ok run_createNewInode]
  exact run_createDentry (m := s.cache.issue) hp halloc

/-- A creation after such a lookup puts the object of the entry. -/
theorem create_marks (hc : c.Serves view) (ho : c.InOrder view) (hs : CacheInv s) (hp : s.cache.lookup pino = some p)
    (hdir : (s.cache.heap p).isDir = true) (hne : n ≠ [])
    (hfind : (findDentry opt (s3Stor c) pino n false).run s = .ok none s₁)
    (hcreate : (createDentry opt (s3Stor c) pino n mode).run s₁ = .ok d s₂) :
    (view s₂.stor).Marks (s.cache.dirPrefix p ++ n) (mode &&& S_IFDIR != 0) := by
  obtain ⟨hs₁, hcache, hview, habsent, w, hagain⟩ := find_nothing hc ho hs hp hdir hfind
  rw [← hcache] at hp hdir habsent ⊢
  obtain ⟨-, hcache', hview', -⟩ := find_nothing hc ho hs₁ hp hdir hagain
  obtain ⟨t', hrun, hput⟩ := run_createDentry_new mode hc hs₁ hp hne hagain hcache'
  obtain ⟨-, rfl⟩ := Result.ok.inj (hcreate.symm.trans hrun)
  show (view t').Marks _ _
  rw [hput, hview', hview]
  exact Bucket.marks_put _ habsent

/-! ### What another mount sees -/

/-- A lookup finds the entry. -/
theorem find_marked (hc : c.Serves view) (hm : Inv m) (ha : m.lookup ino = some a) (hno : (m.heap a).getChild n = none)
    (hmarks : (view t).Marks (m.dirPrefix a ++ n) isDir) (now : Timespec) (garbage : Garbage) : ∃ ch s',
      (findDentry opt (s3Stor c) ino n false).run ⟨m, t, now, garbage⟩ = .ok (some ch) s' ∧
        (s'.cache.heap a).getChild n = some ch ∧ (s'.cache.heap ch).isDir = isDir ∧ CacheInv s' ∧ Grow m s'.cache ∧
          (s'.cache.heap a).complete = (m.heap a).complete := by
  have halloc := (hm.indexed _ _ ha).1
  obtain ⟨obj, exist, k, t₁, hremote, -, hexist, hobj⟩ := run_getRemoteObj t now garbage n hc hm halloc
  have hfound : exist = true := by
    refine hexist.mpr ?_
    have hholds := hmarks.holds
    cases isDir with
    | false => exact .inl hholds
    | true => exact .inr hholds
  subst hfound
  obtain ⟨hkind, hmode⟩ := hobj rfl
  have hsame : k = isDir := by
    have hholds := hmarks.holds
    cases isDir with
    | false => exact hkind.mpr hholds
    | true =>
      cases k with
      | false => exact absurd (hkind.mp rfl) (hmarks.alone rfl)
      | true => rfl
  have hmade := childAt_link (n := n) (m.objInode now obj k) hm halloc rfl
  have hinv : Inv (m.issue.link a n (m.objInode now obj k)) := hm.issue.link halloc hm.fresh
  rw [objInode_kind] at hmade
  obtain ⟨hchild, -, hisDir⟩ := hmade.incTtl now opt.dcacheTimeout hinv (Nat.lt_succ_of_lt halloc)
  have hgrow : Grow m (m.issue.link a n (m.objInode now obj k)) := Grow.issue.trans (.link hm.issue halloc hm.fresh)
  refine ⟨_, _, run_findDentry_found hm ha hno hremote rfl, hchild, hisDir.trans hsame, hinv.set Mild.incTtl,
    hgrow.trans (.set Mild.incTtl), ?_⟩
  have hparent : (m.issue.link a n (m.objInode now obj k)).heap a = _ := heap_link_parent halloc
  rw [heap_set_ne (Nat.ne_of_lt halloc), hparent]
  rfl

/-- A listing shows the entry, unless the directory has a child of the name that is of another kind. -/
theorem load_marked (hm : Inv m) (ha : m.lookup ino = some a) (hcomplete : (m.heap a).complete = false)
    (h : c.Cuts b (m.dirPrefix a) t [] cut t') (hes : b.Entries (m.dirPrefix a) cut.flatten) (hne : n ≠ []) (hn : '/' ∉ n)
    (hmarks : b.Marks (m.dirPrefix a ++ n) isDir) (hold : ∀ ch, (m.heap a).getChild n = some ch → (m.heap ch).isDir = isDir)
    (now : Timespec) (garbage : Garbage) {fuel : Nat} (hfuel : cut.length ≤ fuel) : ∃ ds s',
      (loadSubDentries (s3Stor c) fuel ino).run ⟨m, t, now, garbage⟩ = .ok ds s' ∧ s'.cache.HasKind a n isDir := by
  have halloc := (hm.indexed _ _ ha).1
  obtain ⟨nodes, m₁, m', hrefresh, hb, hswept, hnamed, hinfo⟩ := run_refresh_cut hm halloc h hes now garbage hfuel
  obtain ⟨ds, hlist, -⟩ := mem_listed t' now garbage n hswept.inv
    (Nat.lt_of_lt_of_le halloc (hb.grow.trans hswept.grow).next) (P := fun _ => True)
  refine ⟨ds, ⟨m', t', now, garbage⟩, ?_, ?_⟩
  · rw [loadSubDentries, Prog.run_bind_ok (run_getDentry_some ha)]
    dsimp only
    rw [Prog.run_bind_ok run_needsRefresh, hcomplete, Bool.not_false, Bool.true_or, if_pos rfl, Prog.run_bind_ok hrefresh]
    exact hlist
  · have hkey : isDir = false → m.dirPrefix a ++ n ∈ cut.flatten := by
      rintro rfl
      exact (hes.key hn).mpr hmarks.holds
    have hdir : isDir = true → m.dirPrefix a ++ n ∉ cut.flatten ∧ m.dirPrefix a ++ n ++ slash ∈ cut.flatten := by
      rintro rfl
      refine ⟨fun hmem => hmarks.alone rfl ((hes.key hn).mp hmem), (hes.dir hn).mpr ⟨[], ?_⟩⟩
      rw [List.append_nil]
      exact hmarks.holds
    cases hch : (m.heap a).getChild n with
    | none =>
      have hshown := hinfo n hch
      cases isDir with
      | false =>
        rw [Bucket.cutInfo, if_neg hn, if_pos (hkey rfl)] at hshown
        exact hasKind_of_childInfo hshown
      | true =>
        rw [Bucket.cutInfo, if_neg hn, if_neg (hdir rfl).1, if_pos ⟨hne, (hdir rfl).2⟩] at hshown
        exact hasKind_of_childInfo hshown
    | some ch =>
      -- A child that is there is listed too, so the sweep keeps it.
      have hnames : NamedBy (m.dirPrefix a) cut.flatten n := by
        refine ⟨hn, ?_⟩
        cases isDir with
        | false => exact .inl (hkey rfl)
        | true => exact .inr ⟨hne, (hdir rfl).2⟩
      obtain ⟨node, hnode, rfl⟩ := hnamed n hnames
      obtain ⟨ch', hch', hkept⟩ := listed_refreshed hb hswept hnode
      obtain rfl := hkept ch hch
      have hlt := (hm.child a _ ch' halloc hch).2.1
      refine ⟨ch', hch', ?_⟩
      rw [Dentry.isDir, hswept.inode, (hb.same ch' hlt).1]
      exact hold ch' hch

/-- After `n` was looked up in the directory `p`, not found and created with the mode, any mount over the resulting bucket
    with a directory of the same path that has no cached children and was never listed finds `n` as an entry of that kind,
    and a listing of that directory, before the lookup or after it and however it is cut into pages, has `n` as a child of
    that kind. -/
theorem second_mount_kind (hc : c.Serves view) (ho : c.InOrder view) (hs : Reachable opt s.cache)
    (hp : s.cache.lookup pino = some p) (hdir : (s.cache.heap p).isDir = true) (hne : n ≠ []) (hn : '/' ∉ n)
    (htype : HasType mode) (hfind : (findDentry opt (s3Stor c) pino n false).run s = .ok none s₁)
    (hcreate : (createDentry opt (s3Stor c) pino n mode).run s₁ = .ok d s₂)
    {σ' : Type} {c' : S3Client σ'} {view' : σ' → Bucket} (hc' : c'.Serves view') {opt' : MetaOpt} {u : σ'}
    (hview : view' u = view s₂.stor) (hm : Reachable opt' m) (ha : m.lookup ino = some a)
    (hpath : m.dirPrefix a = s.cache.dirPrefix p) (hempty : ∀ k, (m.heap a).getChild k = none)
    (hcomplete : (m.heap a).complete = false) (now : Timespec) (garbage : Garbage) :
    ∃ ch s', (findDentry opt' (s3Stor c') ino n false).run ⟨m, u, now, garbage⟩ = .ok (some ch) s' ∧
      (s'.cache.heap a).getChild n = some ch ∧ (s'.cache.heap ch).isDir = decide (fileType mode = S_IFDIR) ∧
      ∀ m', m' = m ∨ m' = s'.cache → ∀ {σ'' : Type} {c'' : S3Client σ''} {cut : List (List Str)} {w w' : σ''},
        c''.Cuts (view s₂.stor) (m.dirPrefix a) w [] cut w' → (view s₂.stor).Entries (m.dirPrefix a) cut.flatten →
        ∀ (now : Timespec) (garbage : Garbage) {fuel : Nat}, cut.length ≤ fuel → ∃ ds s'',
          (loadSubDentries (s3Stor c'') fuel ino).run ⟨m', w, now, garbage⟩ = .ok ds s'' ∧
            s''.cache.HasKind a n (decide (fileType mode = S_IFDIR)) := by
  have hmarks := create_marks hc ho hs.inv hp hdir hne hfind hcreate
  rw [← hpath, kind_of_type htype] at hmarks
  have halloc := (hm.inv.indexed _ _ ha).1
  obtain ⟨ch, s', hrun, hchild, hkind, hinv, hgrow, hcomplete'⟩ :=
    find_marked hc' hm.inv ha (hempty n) (hview.symm ▸ hmarks) now garbage
  refine ⟨ch, s', hrun, hchild, hkind, ?_⟩
  rintro m' (rfl | rfl) σ'' c'' cut w w' hcuts hes now garbage fuel hfuel
  · refine load_marked hm.inv ha hcomplete hcuts hes hne hn hmarks (fun ch hch => ?_) now garbage hfuel
    rw [hempty] at hch
    cases hch
  · rw [← dirPrefix_grow hm.inv hgrow halloc] at hcuts hes hmarks
    refine load_marked hinv (hgrow.index _ _ ha) (hcomplete'.trans hcomplete) hcuts hes hne hn hmarks (fun ch' hch' => ?_)
      now garbage hfuel
    obtain rfl := Option.some.inj (hchild.symm.trans hch')
    exact hkind

/-- A bucket with a key deep below `x`, which a lookup does not see. -/
def deepBelow : Log := [(.putFile ['x', '/', 'y', '/', 'z'] [], true)]

/-- A new mount over it after `x` was looked up, and after the directory `x` was then created. -/
def soughtDeep : World Log :=
  endState ((findDentry ⟨0, 0, 60⟩ (s3Stor Log.client) ROOT_INODE_ID ['x'] false).run (newWorld deepBelow))

def madeDeep : World Log :=
  endState ((createDentry ⟨0, 0, 60⟩ (s3Stor Log.client) ROOT_INODE_ID ['x'] S_IFDIR).run soughtDeep)

theorem eq_of_foundNothing {r : Result Err (World σ) (Option Addr)} (h : foundNothing r = true) : r = .ok none (endState r) := by
  cases r with
  | error e s => cases h
  | ok d s =>
    cases d with
    | none => rfl
    | some a => cases h

theorem second_mount_kind_deepBelow : ∃ ch s',
    (findDentry ⟨0, 0, 60⟩ (s3Stor Log.client) ROOT_INODE_ID ['x'] false).run (newWorld madeDeep.stor) = .ok (some ch) s' ∧
      (s'.cache.heap ch).isDir = true := by
  have hfind : (findDentry ⟨0, 0, 60⟩ (s3Stor Log.client) ROOT_INODE_ID ['x'] false).run (newWorld deepBelow) =
      .ok none soughtDeep := eq_of_foundNothing (by decide +kernel)
  have hreturned : returned ((createDentry ⟨0, 0, 60⟩ (s3Stor Log.client) ROOT_INODE_ID ['x'] S_IFDIR).run soughtDeep) = true := by
    decide +kernel
  obtain ⟨d, hcreate⟩ := ok_of_returned hreturned
  have hnew : Reachable ⟨0, 0, 60⟩ newCache := .new ⟨0, 0⟩
  have hroot : newCache.lookup ROOT_INODE_ID = some 0 := rfl
  have htype : HasType S_IFDIR := .inl (by decide)
  have hdir : ((newWorld deepBelow).cache.heap 0).isDir = true := by decide
  obtain ⟨ch, s', hrun, -, hkind, -⟩ := second_mount_kind Log.client_serves Log.client_inOrder hnew hroot hdir (by decide)
    (by decide) htype hfind hcreate Log.client_serves rfl hnew hroot rfl (fun _ => rfl) rfl ⟨0, 0⟩ noGarbage
  exact ⟨ch, s', hrun, hkind⟩

end MetaImpl

end Catfs
