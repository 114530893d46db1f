import Catfs.Theorems.Freed
import Catfs.Theorems.RemoveDir
import Catfs.Theorems.WriterKeys

/-! # A file that was removed

The removal of a file takes its object and its entry away, and looks at no handle. A handle that accepted data puts the
object back when it is released; nothing else of the mount does, but the creation of an object there. -/

namespace Catfs

open Lib CatFS MetaImpl MetaM LocalMemMeta
open EStateM (Result)

/-- No request for what a key or a prefix holds is refused. -/
structure S3Client.AnswersAll {σ : Type} (c : S3Client σ) : Prop where
  head : ∀ t key, (∃ r t', c.headObject key t = .ok r t') ∨ ∃ msg t', c.headObject key t = .error (.notFound msg) t'
  list : ∀ t req, ∃ r t', c.listObjects req t = .ok r t'

namespace MetaImpl
variable {σ α : Type} {opt : MetaOpt} {st : Stor σ} {pino : InodeID} {name : Str} {p a : Addr}

/-! ### The entry that a lookup found -/

/-- `name` is the entry `a` of the directory `pino`, which is at `p`. -/
def EntryAt (pino : InodeID) (p : Addr) (name : Str) (a : Addr) (m : LocalMemMeta) : Prop :=
  m.lookup pino = some p ∧ (m.heap p).getChild name = some a

theorem stays_entryAt : Stays (EntryAt pino p name a) := fun _ _ _ h hk => ⟨h.grow.index _ _ hk.1, h.getChild.trans hk.2⟩

theorem ends_quiet {K : LocalMemMeta → Prop} (hK : Stays K) {q : MetaM σ α} (hq : Quiet (fun _ => ()) q) :
    Returning (fun s => CacheInv s ∧ K s.cache) q fun _ s => CacheInv s ∧ K s.cache :=
  Prog.triple_of_preserves hq (fun _ hs => hs.1) (fun _ _ hs hm hr => ⟨hm, hK _ _ hs.1 hr.cache.toStill hs.2⟩) fun _ _ => trivial

theorem entry_insert {l : MetaAct} {f : Timespec → LocalM Addr} (hf : MakesChild pino name f) :
    Returning (σ := σ) (fun s => CacheInv s ∧ s.cache.lookup pino = some p) (cache l f) fun a s =>
      CacheInv s ∧ EntryAt pino p name a s.cache := by
  refine Prog.triple_lift fun s hs _ => ?_
  obtain ⟨hinv, hp⟩ := hs
  obtain ⟨inode, hino, hrun⟩ := hf.run hinv hp s.now
  have halloc := (hinv.indexed _ _ hp).1
  have hfresh : Fresh s.cache.issue inode.ino := hino ▸ hinv.fresh
  simp only [onCache, zoom, hrun]
  refine ⟨hinv.issue.link halloc hfresh, (Grow.issue.trans (.link hinv.issue halloc hfresh)).index _ _ hp, ?_⟩
  rw [heap_link_parent (m := s.cache.issue) halloc]
  exact AList.lookup_insert ..

/-- A dentry is made for the answer. -/
theorem entry_make {l : MetaAct} {f : Timespec → LocalM Addr} (hf : MakesChild pino name f) (g : Addr → α) :
    Returning (fun s => CacheInv s ∧ s.cache.lookup pino = some p) (do
      let d ← cache l f
      incTtl opt d
      pure (g d) : MetaM σ _) fun r s => ∃ d, r = g d ∧ EntryAt pino p name d s.cache :=
  (entry_insert hf).bind fun d => (ends_quiet stays_entryAt quiet_incTtl).bind fun _ =>
    Prog.triple_pure fun _ hs => ⟨d, rfl, hs.2⟩

theorem entry_findRemote : Returning (fun s => CacheInv s ∧ s.cache.lookup pino = some p) (findRemote opt st pino name) fun r s =>
    ∀ a, r = some a → EntryAt pino p name a s.cache := by
  have hquiet : ∀ {β : Type} {q : MetaM σ β}, Quiet (fun _ => ()) q → Returning (fun s => CacheInv s ∧ s.cache.lookup pino = some p) q
      fun _ s => CacheInv s ∧ s.cache.lookup pino = some p := fun hq => ends_quiet stays_lookup hq
  have hdir : Returning (fun s : World σ => CacheInv s ∧ s.cache.lookup pino = some p) (getDentry pino) fun r s =>
      r = some p ∧ CacheInv s ∧ s.cache.lookup pino = some p := Prog.triple_lift fun s hs _ => ⟨hs.2, hs⟩
  refine hdir.bind fun r => Prog.Triple.of_fact fun hr => ?_
  rw [hr]
  refine (hquiet (quiet_getRemoteObj reads_const)).bind ?_
  rintro ⟨obj, exist, isDir⟩
  cases exist with
  | true =>
    refine (entry_make makes_fromObj some).post fun r s hs a ha => ?_
    obtain ⟨d, rfl, hd⟩ := hs
    exact Option.some.inj ha ▸ hd
  | false =>
    refine (hquiet quiet_pathWithSlash).bind fun pre => (hquiet (quiet_isRemoteDirExist reads_const)).bind fun exist => ?_
    cases exist with
    | false => exact Prog.triple_pure fun s _ a ha => by cases ha
    | true =>
      have hread : Returning (fun s : World σ => CacheInv s ∧ s.cache.lookup pino = some p) (readDentry p) fun d s =>
          d.inode.ino = pino ∧ CacheInv s ∧ s.cache.lookup pino = some p :=
        Prog.triple_lift fun s hs _ => ⟨(hs.1.indexed _ _ hs.2).2, hs⟩
      refine Prog.Triple.map (hread.bind fun d => Prog.Triple.of_fact fun hd => ?_)
      rw [hd]
      refine (entry_make makes_new id).post fun r s hs a ha => ?_
      obtain ⟨d, rfl, hd⟩ := hs
      exact Option.some.inj ha ▸ hd

/-- The dentry that a lookup returns is the entry of the name. -/
theorem entry_findDentry : Returning (fun s => CacheInv s ∧ s.cache.lookup pino = some p) (findDentry opt st pino name false)
    fun r s => ∀ a, r = some a → EntryAt pino p name a s.cache := by
  have hfind : Returning (fun s : World σ => CacheInv s ∧ s.cache.lookup pino = some p)
      (cache (.find pino name) fun _ => LocalMemMeta.findDentry pino name) fun r s =>
        CacheInv s ∧ s.cache.lookup pino = some p ∧ (s.cache.heap p).getChild name = r := by
    refine Prog.triple_lift fun s hs _ => ?_
    simp only [onCache, zoom, LocalMemMeta.run_findDentry hs.2]
    exact ⟨hs.1, hs.2, trivial⟩
  refine hfind.bind fun r => ?_
  cases r with
  | none => exact entry_findRemote.pre fun s hs => ⟨hs.1, hs.2.1⟩
  | some d =>
    have hexpired : Returning (fun s : World σ => CacheInv s ∧ EntryAt pino p name d s.cache) (isExpired d) fun _ s =>
        CacheInv s ∧ EntryAt pino p name d s.cache := ends_quiet stays_entryAt (quiet_look rfl)
    refine hexpired.bind fun expired => ?_
    cases expired with
    | false =>
      refine Prog.triple_pure fun s hs a ha => ?_
      exact Option.some.inj ha ▸ hs.2
    | true =>
      refine ((ends_quiet stays_entryAt (quiet_revalidate reads_const)).returns returns_revalidate).post fun r s hs a ha => ?_
      obtain ⟨hr, -, hentry⟩ := hs
      exact Option.some.inj (hr.symm.trans ha) ▸ hentry

/-! ### The removal -/

section
variable {c : S3Client σ} {view : σ → Bucket} {s s' : World σ} {path : Str}

/-- How the removal of a file that was found ends, if it succeeds: the object is deleted, and then the entry. -/
theorem run_removeDentry_file {s₀ : World σ} (hfind : (findDentry opt (s3Stor c) pino name false).run s₀ = .ok (some a) s)
    (hfile : (s.cache.heap a).isDir = false) (hpath : s.cache.fullPath a = some path) (hp : s.cache.lookup pino = some p)
    (hrun : (removeDentry opt (s3Stor c) pino name).run s₀ = .ok () s') : ∃ t', c.deleteObject path s.stor = .ok () t' ∧
      s' = ⟨s.cache.set p fun d => { d with children := d.children.erase name }, t', s.now, s.garbage⟩ := by
  have hnot : ¬ (s.cache.heap a).isDir = true := fun h => by
    rw [hfile] at h
    cases h
  rw [removeDentry, Prog.run_bind_ok hfind] at hrun
  simp only at hrun
  rw [fullPath, Prog.run_bind_ok (run_cache_ok (run_getFullPath hpath)), Prog.run_bind_ok run_readDentry, if_neg hnot] at hrun
  cases hdel : c.deleteObject path s.stor with
  | ok u t' =>
    have hcall : (s3Stor c).deleteFile { objKey := path } s.stor = .ok () t' := by simp only [s3Stor, orServerError, hdel]
    rw [Prog.run_bind_ok (run_call_ok hcall), run_cache_ok (LocalMemMeta.run_removeDentry hp)] at hrun
    exact ⟨t', rfl, (Result.ok.inj hrun).2.symm⟩
  | error e t' =>
    have hcall : (call (.delete path) ((s3Stor c).deleteFile { objKey := path })).run s =
        .error (.serverError e.message) { s with stor := t' } := by
      rw [call, Prog.run_lift, zoom]
      simp only [s3Stor, orServerError, hdel]
    rw [Prog.run_bind_error hcall] at hrun
    cases hrun

/-- The object and the entry are gone after the removal of a file that has no objects below its path. -/
theorem unlinked_of_remove {s₀ : World σ} (hc : c.Confined view) (hs₀ : CacheInv s₀)
    (hfind : (findDentry opt (s3Stor c) pino name false).run s₀ = .ok (some a) s)
    (hfile : (s.cache.heap a).isDir = false) (hpath : s.cache.fullPath a = some path)
    (hrun : (removeDentry opt (s3Stor c) pino name).run s₀ = .ok () s')
    (hbelow : ∀ rest, ¬ (view s'.stor).Holds (path ++ slash ++ rest)) : ∃ p, Unlinked view pino p name path s' := by
  cases hp₀ : s₀.cache.lookup pino with
  | none =>
    rw [run_findDentry_unknown hp₀] at hfind
    cases hfind
  | some p =>
    have hinv : CacheInv s := by
      have htame : Tame (findDentry opt (s3Stor c) pino name false) := tame_findDentry
      have hend := (htame.run hs₀).1
      rwa [hfind] at hend
    have hentry : Returning (fun s => CacheInv s ∧ s.cache.lookup pino = some p) (findDentry opt (s3Stor c) pino name false)
        fun r s => ∀ a, r = some a → EntryAt pino p name a s.cache := entry_findDentry
    have hfound := hentry s₀ ⟨hs₀, hp₀⟩ Prog.guarded_trivial
    rw [hfind] at hfound
    obtain ⟨hp, hchild⟩ := hfound a rfl
    have halloc := (hinv.indexed _ _ hp).1
    obtain ⟨t', hdel, rfl⟩ := run_removeDentry_file hfind hfile hpath hp hrun
    have hkey : s.cache.dirPrefix p ++ name = path :=
      Option.some.inj ((LocalMemMeta.fullPath_child hinv halloc hchild).symm.trans hpath)
    refine ⟨p, hinv.set Mild.erase, hp, ?_, ?_, ?_⟩
    · exact (congrArg (· ++ name) (dirPrefix_grow hinv (.set Mild.erase) halloc)).trans hkey
    · rw [heap_set_self]
      exact AList.lookup_erase ..
    · rintro key (rfl | ⟨rest, rfl⟩)
      · exact hc.deleted _ _ _ hdel
      · exact hbelow rest

end

/-! ### Lookups of the name -/

section
variable {c : S3Client σ} {view : σ → Bucket} {path : Str} {s : World σ} (hc : c.Confined view) (ha : c.AnswersAll)
include hc ha

theorem run_headFile_absent {key : Str} (hno : ¬ (view s.stor).Holds key) (resp : HeadFileResp) : ∃ resp' t',
    (headFile (s3Stor c) key resp).run s = .ok resp' { s with stor := t' } ∧ resp'.exist = false ∧ view t' = view s.stor := by
  have hkeep := hc.headKeeps s.stor key
  rcases ha.head s.stor key with ⟨r, t', hr⟩ | ⟨msg, t', hr⟩
  · exact absurd (hc.head _ _ _ _ hr) hno
  · rw [hr] at hkeep
    have hcall : (s3Stor c).headFile { objKey := key } resp s.stor = .ok { resp with exist := false } t' := by
      simp only [s3Stor, hr]
    exact ⟨_, t', run_call_ok hcall, rfl, hkeep⟩

theorem run_isRemoteDirExist_absent (hno : ∀ rest, ¬ (view s.stor).Holds (path ++ slash ++ rest)) : ∃ t',
    (isRemoteDirExist (s3Stor c) (path ++ slash)).run s = .ok false { s with stor := t' } := by
  obtain ⟨r, t', hr⟩ := ha.list s.stor { delimiter := slash, marker := [], maxKeys := 1, pre := path ++ slash }
  have hpart := hc.list _ _ _ _ rfl hr
  have hnone : r.contents = [] := by
    refine List.eq_nil_iff_forall_not_mem.mpr fun o ho => ?_
    obtain ⟨k, body, hk, -, hbody, -⟩ := hpart.keys o ho
    refine hno k ?_
    rw [Bucket.Holds, ← hk, hbody]
    rfl
  have hreq : orServerError (c.listObjects { delimiter := slash, marker := [], maxKeys := 1, pre := path ++ slash }) s.stor =
      .ok r t' := by rw [orServerError, hr]
  have hcall : (s3Stor c).listObjects { delimiter := [], pre := path ++ slash, max := 1, marker := [] } s.stor =
      .ok (pageResp (c.garbage s.stor) r) t' := bind_ok hreq
  refine ⟨t', ?_⟩
  rw [isRemoteDirExist, Prog.run_bind_ok (run_call_ok hcall)]
  simp [pageResp, hnone]

/-- Such a lookup returns NULL. -/
theorem run_findDentry_unlinked (hs : Unlinked view pino p name path s) :
    ∃ s', (findDentry opt (s3Stor c) pino name false).run s = .ok none s' := by
  have hpre : ∀ s' : World σ, s'.cache = s.cache → (pathWithSlash p).run s' = .ok (s.cache.dirPrefix p) s' := by
    intro s' hcache
    have hrun : (pathWithSlash p).run s' = .ok (s'.cache.dirPrefix p) s' :=
      run_pathWithSlash (hcache ▸ hs.inv) (hcache ▸ hs.alloc)
    rwa [hcache] at hrun
  have hfile : ¬ (view s.stor).Holds path := hs.bucket path (.inl rfl)
  have hmarker : ¬ (view s.stor).Holds (path ++ slash) := hs.bucket _ (.inr ⟨[], by rw [List.append_nil]⟩)
  obtain ⟨resp, t₁, hrun₁, hexist, hview₁⟩ := run_headFile_absent hc ha hfile (HeadFileResp.uninit s.garbage)
  have hmarker₁ : ¬ (view t₁).Holds (path ++ slash) := by rwa [hview₁]
  obtain ⟨resp', t₂, hrun₂, hexist', hview₂⟩ := run_headFile_absent (s := { s with stor := t₁ }) hc ha hmarker₁ resp
  have hobj : (getRemoteObj (s3Stor c) p name).run s = .ok (resp'.obj, false, false) { s with stor := t₂ } := by
    have hresp : (headResp : MetaM σ _).run s = .ok (HeadFileResp.uninit s.garbage) s := rfl
    rw [getRemoteObj, Prog.run_bind_ok (hpre s rfl), Prog.run_bind_ok hresp, hs.key, Prog.run_bind_ok hrun₁, hexist,
      if_neg Bool.false_ne_true, Prog.run_bind_ok hrun₂, hexist']
    rfl
  have hbelow : ∀ rest, ¬ (view t₂).Holds (path ++ slash ++ rest) := by
    intro rest
    rw [show view t₂ = view s.stor from hview₂.trans hview₁]
    exact hs.bucket _ (.inr ⟨rest, rfl⟩)
  obtain ⟨t₃, hrun₃⟩ := run_isRemoteDirExist_absent (s := { s with stor := t₂ }) hc ha hbelow
  refine ⟨{ s with stor := t₃ }, ?_⟩
  have hget : (getDentry pino : MetaM σ _).run s = .ok (some p) s := by
    refine run_cache_ok ?_
    rw [run_getDentry, hs.dir]
  have hfind : (findDentry opt (s3Stor c) pino name false).run s = (findRemote opt (s3Stor c) pino name).run s := by
    rw [findDentry, Prog.run_bind_ok (run_cache_ok (LocalMemMeta.run_findDentry hs.dir)), hs.child]
    rfl
  rw [hfind, findRemote, Prog.run_bind_ok hget]
  simp only
  rw [Prog.run_bind_ok hobj]
  simp only
  rw [if_neg Bool.false_ne_true, Prog.run_bind_ok (hpre { s with stor := t₂ } rfl), hs.key, Prog.run_bind_ok hrun₃,
    if_neg Bool.false_ne_true]
  rfl

end

end MetaImpl

end Catfs
