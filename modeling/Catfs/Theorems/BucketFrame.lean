import Catfs.Lib.Observe
import Catfs.Theorems.RequestKeys
import Catfs.Theorems.UnlinkedRun

/-! # The objects that a request changes

A request on names puts at most the object of the entry that it creates, and deletes at most the object of the entry
that it removes, whoever else takes steps in between and whatever fails. -/

namespace Catfs

open Lib MetaM LocalMemMeta
open EStateM (Result)

section
variable {σ : Type}

/-- A request that changes the bucket takes effect as a whole or not at all; one that failed may have. -/
structure S3Client.Atomic (c : S3Client σ) (view : σ → Bucket) : Prop extends c.Confined view where
  puts : ∀ t key body, view (endState (c.putObject key body t)) = view t ∨
    view (endState (c.putObject key body t)) = (view t).put key body
  put_ok : ∀ t key body t', key ≠ [] → c.putObject key body t = .ok () t' → view t' = (view t).put key body
  deletes : ∀ t key, view (endState (c.deleteObject key t)) = view t ∨
    view (endState (c.deleteObject key t)) = (view t).delete key
  completes : ∀ t key uploadId, view (endState (c.completeMultipartUpload key uploadId t)) = view t ∨
    ∃ body, view (endState (c.completeMultipartUpload key uploadId t)) = (view t).put key body

end

theorem Log.client_atomic : Log.client.Atomic Log.bucket where
  toConfined := Log.client_confined
  puts t key body := by
    by_cases hkey : key = []
    · refine .inl (funext fun k => ?_)
      by_cases hk : k = []
      · rw [hk, Log.bucket_nil, Log.bucket_nil]
      · exact Log.client_confined.put t key body k (hkey ▸ hk)
    · exact .inr (Log.bucket_putFile hkey)
  put_ok t key body t' hkey h := by
    obtain ⟨-, rfl⟩ := Result.ok.inj h
    exact Log.bucket_putFile hkey
  deletes _ _ := .inr Log.bucket_deleteFile
  completes t key uploadId := by
    by_cases hkey : key = []
    · refine .inl (funext fun k => ?_)
      by_cases hk : k = []
      · rw [hk, Log.bucket_nil, Log.bucket_nil]
      · exact Log.client_confined.complete t key uploadId k (hkey ▸ hk)
    · refine .inr ⟨Log.joined t uploadId, funext fun k => ?_⟩
      by_cases hk : k = key
      · subst hk
        rw [Bucket.put, Function.update_self]
        exact (Log.bucket_append hkey _).trans (by simp [Log.objectFrom])
      · rw [Bucket.put, Function.update_of_ne hk]
        exact Log.client_confined.complete t key uploadId k hk

namespace Bucket
variable {b b' : Bucket} {key k : Str} {body : List Byte}

/-- A key whose object differs is the one that was put. -/
theorem of_put_ne (h : b' = b ∨ b' = b.put key body) (hne : b' k ≠ b k) : k = key ∧ b' k = some body := by
  rcases h with rfl | rfl
  · exact absurd rfl hne
  · by_cases hk : k = key
    · refine ⟨hk, ?_⟩
      rw [hk, put, Function.update_self]
    · rw [put, Function.update_of_ne hk] at hne
      exact absurd rfl hne

theorem of_delete_ne (h : b' = b ∨ b' = b.delete key) (hne : b' k ≠ b k) : k = key ∧ b' k = none := by
  rcases h with rfl | rfl
  · exact absurd rfl hne
  · by_cases hk : k = key
    · refine ⟨hk, ?_⟩
      rw [hk, delete, Function.update_self]
    · rw [delete, Function.update_of_ne hk] at hne
      exact absurd rfl hne

end Bucket

namespace MetaImpl
variable {σ α : Type} {c : S3Client σ} {view : σ → Bucket} {opt : MetaOpt} {pino ino : InodeID} {n : Str} {a : Addr} {mode : Mode}
  {m m' : LocalMemMeta} {key : Str} {v : Option (List Byte)} {T : LocalMemMeta → Str → Option (List Byte) → Prop}
  {K : LocalMemMeta → Prop}

/-! ### What a request may do -/

/-- The request may leave `v` as the object under `key`: the empty one of an entry that it creates, or none for an entry
    that it removes. -/
def Request.Sets (m : LocalMemMeta) (key : Str) (v : Option (List Byte)) : Request → Prop
  | .create pino n mode =>
    ∃ p, m.lookup pino = some p ∧ key = entryKey (m.dirPrefix p ++ n) (mode &&& S_IFDIR != 0) ∧ v = some []
  | .remove pino n => ∃ p, m.lookup pino = some p ∧ EntryKey (m.dirPrefix p ++ n) key ∧ v = none
  | _ => False

/-- What `T` says of a key is not taken back as the cache grows. -/
def Settled (T : LocalMemMeta → Str → Option (List Byte) → Prop) : Prop :=
  ∀ m m' key v, m.Inv → Grow m m' → T m key v → T m' key v

theorem Request.sets_settled (r : Request) : Settled r.Sets := by
  intro m m' key v hm hg h
  cases r with
  | create pino n mode =>
    obtain ⟨p, hp, hkey, hv⟩ := h
    exact ⟨p, hg.index _ _ hp, by rw [dirPrefix_grow hm hg (hm.indexed _ _ hp).1, hkey], hv⟩
  | remove pino n =>
    obtain ⟨p, hp, hkey, hv⟩ := h
    exact ⟨p, hg.index _ _ hp, by rwa [dirPrefix_grow hm hg (hm.indexed _ _ hp).1], hv⟩
  | _ => exact h

/-- The cache grew, in whatever way. -/
structure Grown (s s' : World σ) : Prop where
  before : CacheInv s
  after : CacheInv s'
  grow : CacheGrow s s'

/-- The step leaves the shape of the cache, and changes an object only to what `T` allows. -/
structure Framed (view : σ → Bucket) (T : LocalMemMeta → Str → Option (List Byte) → Prop) (s s' : World σ) : Prop where
  inv : CacheInv s'
  grow : CacheGrow s s'
  object : ∀ key, view s'.stor key ≠ view s.stor key → T s.cache key (view s'.stor key)

/-- A step that changes no object. -/
structure Beside (view : σ → Bucket) (s s' : World σ) : Prop where
  inv : CacheInv s'
  grow : CacheGrow s s'
  view : view s'.stor = view s.stor

abbrev Frames (view : σ → Bucket) (T : LocalMemMeta → Str → Option (List Byte) → Prop) (P : World σ → Prop)
    (q : MetaM σ α) (Q : α → World σ → Prop) : Prop := q.Moves Grown (fun _ => Framed view T) CacheInv P Q

abbrev Mute (view : σ → Bucket) (q : MetaM σ α) : Prop := q.Preserves (fun _ => True) CacheInv (Beside view)

/-- What is kept as the cache grows. -/
abbrev Lasts (K : LocalMemMeta → Prop) : Prop := ∀ m m', m.Inv → Grow m m' → K m → K m'

theorem persists_cache (hK : Lasts K) : Prog.Persists Grown fun s : World σ => K s.cache :=
  fun _ _ h hk => hK _ _ h.before h.grow hk

theorem lasts_const {φ : Prop} : Lasts fun _ => φ := fun _ _ _ _ h => h

theorem lasts_true : Lasts fun _ => True := fun _ _ _ _ _ => trivial

/-! ### Steps that change no object -/

theorem mute_quiet {q : MetaM σ α} (hq : Quiet view q) : Mute view q :=
  Prog.Preserves.weaken hq (fun _ _ => trivial) fun _ _ _ hinv h => ⟨hinv, h.cache.grow, h.view⟩

theorem mute_cache {l : MetaAct} {f : Timespec → LocalM α} (h : ∀ now, LocalMemMeta.Kept (f now)) : Mute view (cache l f : MetaM σ α) := by
  refine Prog.preserves_lift trivial fun s hs _ => ?_
  have hend := h s.now s.cache hs trivial
  simp only [onCache, zoom]
  cases hf : f s.now s.cache <;> rw [hf] at hend
  · exact ⟨hend.1, ⟨hend.1, hend.2.1, rfl⟩, trivial⟩
  · exact ⟨hend.1, hend.1, hend.2, rfl⟩

theorem frames_mute {q : MetaM σ α} (hq : Mute view q) (hK : Lasts K) :
    Frames view T (fun s => K s.cache) q fun _ s => K s.cache :=
  Prog.moves_of_preserves hq (fun _ _ _ _ hs h => ⟨⟨h.inv, h.grow, fun _ hne => absurd (congrFun h.view _) hne⟩, hs, h.inv, h.grow⟩)
    (persists_cache hK)

/-- An operation of the cache that reads it. -/
theorem frames_read (K : LocalMemMeta → Prop) (K' : α → LocalMemMeta → Prop) {l : MetaAct} {f : Timespec → LocalM α}
    (hread : ∀ now, ReadOnly (f now)) (hK : ∀ r, Lasts (K' r)) (h : ∀ now m r m', m.Inv → K m → f now m = .ok r m' → K' r m) :
    Frames view T (fun s => K s.cache) (cache l f : MetaM σ α) fun r s => K' r s.cache := by
  refine Prog.moves_lift (fun r => persists_cache (hK r)) fun s hs hk => ?_
  have hsame := hread s.now s.cache
  simp only [onCache, zoom]
  cases hf : f s.now s.cache with
  | ok r m' =>
    rw [hf] at hsame
    obtain rfl : m' = s.cache := hsame
    refine ⟨⟨hs, .refl _, fun _ hne => absurd rfl hne⟩, fun r' s' hr => ?_⟩
    obtain ⟨rfl, rfl⟩ := Result.ok.inj hr
    exact h s.now _ _ _ hs hk hf
  | error e m' =>
    rw [hf] at hsame
    obtain rfl : m' = s.cache := hsame
    exact ⟨⟨hs, .refl _, fun _ hne => absurd rfl hne⟩, fun r' s' hr => by cases hr⟩

/-! ### Lookups -/

/-- The dentry `a` is or was the entry `n` of the directory `pino`. -/
def IsEntry (pino : InodeID) (n : Str) (a : Addr) (m : LocalMemMeta) : Prop :=
  a < m.heapNext ∧ ∃ p, m.lookup pino = some p ∧ m.fullPath a = some (m.dirPrefix p ++ n)

theorem lasts_entry : Lasts (IsEntry pino n a) := by
  rintro m m' hm hg ⟨ha, p, hp, hpath⟩
  refine ⟨Nat.lt_of_lt_of_le ha hg.next, p, hg.index _ _ hp, ?_⟩
  rw [fullPath_grow hm hg ha, dirPrefix_grow hm hg (hm.indexed _ _ hp).1, hpath]

theorem lasts_entries {r : Option Addr} : Lasts fun m => ∀ a, r = some a → IsEntry pino n a m :=
  fun m m' hm hg h a hr => lasts_entry m m' hm hg (h a hr)

theorem isEntry_child {p : Addr} (hm : m.Inv) (hp : m.lookup pino = some p) (ha : (m.heap p).getChild n = some a) :
    IsEntry pino n a m :=
  have halloc := (hm.indexed _ _ hp).1
  ⟨(hm.child p n a halloc ha).2.1, p, hp, fullPath_child hm halloc ha⟩

theorem frames_insert {f : Timespec → LocalM Addr} (hf : MakesChild pino n f) :
    Frames view T (fun _ => True) (cache (.insert pino n) f) fun a s => IsEntry pino n a s.cache := by
  refine Prog.moves_lift (fun _ => persists_cache lasts_entry) fun s hs _ => ?_
  simp only [onCache, zoom]
  rcases hf s.now s.cache hs with ⟨p, inode, hp, hi, hrun⟩ | ⟨e, m', -, hrun, h⟩
  · have halloc := (Inv.indexed hs _ _ hp).1
    have hfresh : Fresh s.cache.issue inode.ino := hi ▸ Inv.fresh hs
    have hinv : (s.cache.issue.link p n inode).Inv := (Inv.issue hs).link halloc hfresh
    have hgrow : Grow s.cache (s.cache.issue.link p n inode) := Grow.issue.trans (.link (Inv.issue hs) halloc hfresh)
    rw [hrun]
    refine ⟨⟨hinv, hgrow, fun _ hne => absurd rfl hne⟩, fun a s' hr => ?_⟩
    obtain ⟨rfl, rfl⟩ := Result.ok.inj hr
    refine isEntry_child hinv (hgrow.index _ _ hp) ?_
    rw [heap_link_parent (m := s.cache.issue) halloc]
    exact AList.lookup_insert _
  · rw [hrun]
    refine ⟨?_, fun a s' hr => by cases hr⟩
    rcases h with rfl | rfl
    · exact ⟨hs, .refl _, fun _ hne => absurd rfl hne⟩
    · exact ⟨Inv.issue hs, .issue, fun _ hne => absurd rfl hne⟩

theorem frames_made {β : Type} {f : Timespec → LocalM Addr} (hf : MakesChild pino n f) (g : Addr → β) :
    Frames view T (fun _ => True) (do
      let d ← cache (.insert pino n) f
      incTtl opt d
      pure (g d)) fun r s => ∃ a, r = g a ∧ IsEntry pino n a s.cache :=
  (frames_insert hf).bind fun a => (frames_mute (mute_quiet quiet_incTtl) lasts_entry).bind fun _ =>
    Prog.moves_pure fun _ ha => ⟨a, rfl, ha⟩

theorem lasts_dirs (r : Option Addr) : Lasts fun m => ∀ a, r = some a → DirAt pino a m :=
  fun m m' hm hg h a ha => dirAt_grow m m' hm hg (h a ha)

theorem frames_getDir : Frames view T (fun _ => True) (getDentry pino) fun r s => ∀ a, r = some a → DirAt pino a s.cache := by
  refine frames_read (fun _ => True) (fun r m => ∀ a, r = some a → DirAt pino a m) (fun _ _ => rfl) lasts_dirs ?_
  rintro now m r m' hm - hr a rfl
  obtain ⟨ha, -⟩ := Result.ok.inj hr
  exact ⟨ha, (hm.indexed _ _ ha).1⟩

section
variable (hc : Reads (s3Stor c) view)
include hc

theorem frames_findRemote : Frames view T (fun _ => True) (findRemote opt (s3Stor c) pino n) fun r s =>
    ∀ a, r = some a → IsEntry pino n a s.cache := by
  refine frames_getDir.bind fun parent => ?_
  cases parent with
  | none => trivial
  | some p =>
    have hlasts : Lasts (DirAt pino p) := dirAt_grow
    refine Prog.Moves.pre ?_ fun s hs => hs p rfl
    refine (frames_mute (mute_quiet (quiet_getRemoteObj hc)) hlasts).bind ?_
    rintro ⟨obj, exist, isDir⟩
    cases exist with
    | true =>
      have hmade : Frames view T (fun _ => True) (do
          let d ← cache (.insert pino n) fun now => createDentryFromObj now pino n obj isDir
          incTtl opt d
          pure (some d)) fun r s => ∃ a, r = some a ∧ IsEntry pino n a s.cache := frames_made makes_fromObj some
      refine (hmade.post ?_).pre fun _ _ => trivial
      rintro r s ⟨a, rfl, ha⟩ b hb
      exact Option.some.inj hb ▸ ha
    | false =>
      refine (frames_mute (mute_quiet quiet_pathWithSlash) hlasts).bind fun pre =>
        (frames_mute (mute_quiet (quiet_isRemoteDirExist hc)) hlasts).bind fun exist => ?_
      cases exist with
      | false => exact Prog.moves_pure fun s _ a ha => by cases ha
      | true =>
        have hread : Frames view T (fun s => DirAt pino p s.cache) (readDentry p) fun d _ => d.inode.ino = pino ∧ True := by
          refine frames_read (DirAt pino p) (fun (d : Dentry) _ => d.inode.ino = pino ∧ True) (fun _ _ => rfl) (fun _ => lasts_const)
            fun now m d m' hm hp hr => ?_
          obtain ⟨rfl, -⟩ := Result.ok.inj hr
          exact ⟨(hm.indexed _ _ hp.1).2, trivial⟩
        refine Prog.Moves.map (hread.bind fun d => .of_fact fun hd => ?_)
        rw [hd]
        refine (frames_made makes_new id).post ?_
        rintro e s ⟨a, rfl, ha⟩ b hb
        exact Option.some.inj hb ▸ ha

theorem frames_findDentry : Frames view T (fun _ => True) (findDentry opt (s3Stor c) pino n false) fun r s =>
    ∀ a, r = some a → IsEntry pino n a s.cache := by
  have hfind : Frames view T (fun _ => True) (cache (.find pino n) fun _ => LocalMemMeta.findDentry pino n) fun r s =>
      ∀ a, r = some a → IsEntry pino n a s.cache := by
    refine frames_read (fun _ => True) (fun r m => ∀ a, r = some a → IsEntry pino n a m) (fun _ => readOnly_findDentry)
      (fun _ => lasts_entries) fun now m r m' hm _ hr a ha => ?_
    cases hp : m.lookup pino with
    | none =>
      rw [run_findDentry_none hp] at hr
      cases hr
    | some p =>
      rw [run_findDentry hp] at hr
      obtain ⟨rfl, -⟩ := Result.ok.inj hr
      exact isEntry_child hm hp ha
  refine hfind.bind fun r => ?_
  cases r with
  | none => exact (frames_findRemote hc).pre fun _ _ => trivial
  | some a =>
    have hsome : ∀ m, IsEntry pino n a m → ∀ b, some a = some b → IsEntry pino n b m := fun m h b hb => Option.some.inj hb ▸ h
    refine Prog.Moves.pre ?_ fun s hs => hs a rfl
    refine (frames_mute (mute_quiet (quiet_look rfl)) lasts_entry).bind fun expired => .ite ?_ (Prog.moves_pure fun s => hsome s.cache)
    refine ((frames_mute (mute_quiet (quiet_revalidate hc)) lasts_entry).returns returns_revalidate).post ?_
    rintro r s ⟨rfl, ha⟩
    exact hsome s.cache ha

theorem mute_refreshLoop {pre : Str} (fuel : Nat) (marker : Str) : Mute view (refreshLoop (s3Stor c) ino pre fuel marker) := by
  induction fuel generalizing marker with
  | zero => trivial
  | succ fuel ih =>
    refine (mute_quiet (quiet_call rfl fun t => hc.list _ t)).bind fun resp => ?_
    cases buildFtree pre resp with
    | none => trivial
    | some children => exact (mute_cache fun _ => kept_buildDentries).bind fun _ => .ite (ih _) trivial

theorem mute_loadSubDentries {fuel : Nat} : Mute view (loadSubDentries (s3Stor c) fuel ino) := by
  refine (mute_quiet quiet_getDentry).bind fun r => ?_
  cases r with
  | none => trivial
  | some a =>
    refine (mute_quiet (quiet_look rfl)).bind fun stale => .ite (Prog.Preserves.bind ?_ fun _ => mute_quiet quiet_listChildren)
      (mute_quiet quiet_listChildren)
    exact (mute_quiet quiet_pathWithSlash).bind fun pre => (mute_quiet quiet_readDentry).bind fun d =>
      (mute_refreshLoop hc _ _).bind fun _ => mute_cache fun _ => kept_clearUnsyncDentry

end

/-! ### New and removed entries -/

/-- The key of the object for the entry `n` of the directory `pino`. -/
def IsKey (pino : InodeID) (n : Str) (mode : Mode) (key : Str) (m : LocalMemMeta) : Prop :=
  ∃ p, DirAt pino p m ∧ key = entryKey (m.dirPrefix p ++ n) (mode &&& S_IFDIR != 0)

theorem lasts_key : Lasts (IsKey pino n mode key) := by
  rintro m m' hm hg ⟨p, hp, rfl⟩
  exact ⟨p, dirAt_grow m m' hm hg hp, by rw [dirPrefix_grow hm hg hp.2]⟩

/-- The key is read in two steps, and what the first one saw lasts. -/
theorem frames_newKey {p : Addr} : Frames view T (fun s => DirAt pino p s.cache) (newKey p n mode) fun key s =>
    IsKey pino n mode key s.cache := by
  have hlasts : ∀ b : Bool, Lasts fun m => DirAt pino p m ∧ b = (m.heap p).isRoot := by
    rintro b m m' hm hg ⟨hp, rfl⟩
    exact ⟨dirAt_grow m m' hm hg hp, (isRoot_grow hg hp.2).symm⟩
  have hread : Frames view T (fun s => DirAt pino p s.cache) (readDentry p) fun d s =>
      DirAt pino p s.cache ∧ d.isRoot = (s.cache.heap p).isRoot := by
    refine frames_read (DirAt pino p) (fun (d : Dentry) m => DirAt pino p m ∧ d.isRoot = (m.heap p).isRoot)
      (fun _ _ => rfl)
      (fun d => hlasts d.isRoot) fun now m d m' hm hp hr => ?_
    obtain ⟨rfl, -⟩ := Result.ok.inj hr
    exact ⟨hp, rfl⟩
  have hkey : ∀ b : Bool, Frames view T (fun s => DirAt pino p s.cache ∧ b = (s.cache.heap p).isRoot) (fileKey p b n) fun key s =>
      DirAt pino p s.cache ∧ key = s.cache.dirPrefix p ++ n := by
    intro b
    cases b with
    | true =>
      refine Prog.moves_pure fun s hs => ⟨hs.1, ?_⟩
      rw [dirPrefix, if_pos hs.2.symm]
      rfl
    | false =>
      have hpath : Frames view T (fun s => DirAt pino p s.cache ∧ false = (s.cache.heap p).isRoot) (fullPath p) fun path s =>
          DirAt pino p s.cache ∧ path ++ slash = s.cache.dirPrefix p := by
        refine frames_read (fun m => DirAt pino p m ∧ false = (m.heap p).isRoot)
          (fun path m => DirAt pino p m ∧ path ++ slash = m.dirPrefix p) (fun _ => readOnly_getFullPath) ?_ ?_
        · rintro path m m' hm hg ⟨hp, hpre⟩
          exact ⟨dirAt_grow m m' hm hg hp, by rw [dirPrefix_grow hm hg hp.2, hpre]⟩
        · rintro now m r m' hm ⟨hp, hroot⟩ hr
          obtain ⟨path, hpath⟩ := fullPath_some hm hp.2
          rw [run_getFullPath hpath] at hr
          obtain ⟨rfl, -⟩ := Result.ok.inj hr
          refine ⟨hp, ?_⟩
          rw [dirPrefix, ← hroot, hpath]
          rfl
      exact hpath.bind fun path => Prog.moves_pure fun s hs => ⟨hs.1, by rw [hs.2]⟩
  refine hread.bind fun d => (hkey d.isRoot).bind fun key => Prog.moves_pure fun s hs => ⟨p, hs.1, ?_⟩
  rw [← hs.2]
  rfl

section
variable (hc : c.Atomic view)
include hc

theorem frames_put {metaData : List (Str × Str)} (hT : ∀ m, IsKey pino n mode key m → T m key (some [])) :
    Frames view T (fun s => IsKey pino n mode key s.cache)
      (call (.put key) ((s3Stor c).putFile { objKey := key, buf := none, size := 0, metaData })) fun _ _ => True := by
  refine Prog.moves_lift (fun _ _ _ _ _ => trivial) fun s hs hkey => ⟨?_, fun _ _ _ => trivial⟩
  have hput := hc.puts s.stor key []
  rw [← endState_orServerError] at hput
  have hobject : ∀ t, view t = view s.stor ∨ view t = (view s.stor).put key [] →
      Framed view T s { s with stor := t } := by
    refine fun t ht => ⟨hs, .refl _, fun k hne => ?_⟩
    obtain ⟨rfl, hv⟩ := Bucket.of_put_ne ht hne
    dsimp only
    rw [hv]
    exact hT _ hkey
  simp only [zoom, s3Stor]
  cases hr : orServerError (c.putObject key []) s.stor with
  | ok u t =>
    rw [hr] at hput
    simpa [hr] using hobject t hput
  | error e t =>
    rw [hr] at hput
    simpa [hr] using hobject t hput

theorem frames_delete (hT : ∀ m, K m → T m key none) : Frames view T (fun s => K s.cache)
    (call (.delete key) ((s3Stor c).deleteFile { objKey := key })) fun _ _ => True := by
  refine Prog.moves_lift (fun _ _ _ _ _ => trivial) fun s hs hkey => ⟨?_, fun _ _ _ => trivial⟩
  have hdelete := hc.deletes s.stor key
  rw [← endState_orServerError] at hdelete
  have hobject : ∀ t, view t = view s.stor ∨ view t = (view s.stor).delete key → Framed view T s { s with stor := t } := by
    refine fun t ht => ⟨hs, .refl _, fun k hne => ?_⟩
    obtain ⟨rfl, hv⟩ := Bucket.of_delete_ne ht hne
    dsimp only
    rw [hv]
    exact hT _ hkey
  simp only [zoom, s3Stor]
  cases hr : orServerError (c.deleteObject key) s.stor with
  | ok u t =>
    rw [hr] at hdelete
    exact hobject t hdelete
  | error e t =>
    rw [hr] at hdelete
    exact hobject t hdelete

theorem frames_createDentry (hT : ∀ m key v, (Request.create pino n mode).Sets m key v → T m key v) :
    Frames view T (fun _ => True) (createDentry opt (s3Stor c) pino n mode) fun _ _ => True := by
  have hreads := reads_confined hc.toConfined
  refine (frames_findDentry hreads).bind fun r => ?_
  cases r with
  | some d => exact Prog.moves_pure fun _ _ => trivial
  | none =>
    have hdir : Frames view T (fun _ => True) (getDentry pino >>= fun d => deref d) fun p s => DirAt pino p s.cache := by
      refine frames_getDir.bind fun d => ?_
      cases d with
      | none => trivial
      | some p => exact Prog.moves_pure fun s hs => hs p rfl
    have hset : ∀ key m, IsKey pino n mode key m → T m key (some []) := by
      rintro key m ⟨p, hp, hkey⟩
      exact hT m key _ ⟨p, hp.1, hkey, rfl⟩
    refine Prog.Moves.pre (hdir.bind fun p => ?_) fun _ _ => trivial
    refine frames_newKey.bind fun key => ?_
    have hread : Frames view T (fun s => IsKey pino n mode key s.cache) (readDentry p) fun _ s => IsKey pino n mode key s.cache :=
      frames_mute (mute_quiet quiet_readDentry) lasts_key
    exact hread.bind fun d => (frames_put hc (hset key)).bind fun _ => (frames_insert makes_new).post fun _ _ _ => trivial

theorem frames_removeDentry (hT : ∀ m key v, (Request.remove pino n).Sets m key v → T m key v) :
    Frames view T (fun _ => True) (removeDentry opt (s3Stor c) pino n) fun _ _ => True := by
  refine (frames_findDentry (reads_confined hc.toConfined)).bind fun r => ?_
  cases r with
  | none => exact Prog.moves_pure fun _ _ => trivial
  | some a =>
    refine Prog.Moves.pre ?_ fun s hs => hs a rfl
    have hlasts : ∀ path, Lasts fun m => ∃ p, DirAt pino p m ∧ path = m.dirPrefix p ++ n := by
      rintro path m m' hm hg ⟨p, hp, rfl⟩
      exact ⟨p, dirAt_grow m m' hm hg hp, by rw [dirPrefix_grow hm hg hp.2]⟩
    have hpath : Frames view T (fun s => IsEntry pino n a s.cache) (fullPath a) fun path s =>
        ∃ p, DirAt pino p s.cache ∧ path = s.cache.dirPrefix p ++ n := by
      refine frames_read (IsEntry pino n a) (fun path m => ∃ p, DirAt pino p m ∧ path = m.dirPrefix p ++ n)
        (fun _ => readOnly_getFullPath) hlasts fun now m r m' hm hentry hr => ?_
      obtain ⟨-, p, hp, hfull⟩ := hentry
      rw [run_getFullPath hfull] at hr
      obtain ⟨rfl, -⟩ := Result.ok.inj hr
      exact ⟨p, ⟨hp, (hm.indexed _ _ hp).1⟩, rfl⟩
    refine hpath.bind fun path => ?_
    have herase : Frames view T (fun _ => True) (cache (.erase pino n) fun _ => LocalMemMeta.removeDentry pino n)
        fun _ _ => True := frames_mute (mute_cache fun _ => kept_removeDentry) lasts_true
    have hset : ∀ isDir m, (∃ p, DirAt pino p m ∧ path = m.dirPrefix p ++ n) → T m (entryKey path isDir) none := by
      rintro isDir m ⟨p, hp, rfl⟩
      exact hT m _ _ ⟨p, hp.1, ⟨isDir, rfl⟩, rfl⟩
    refine (frames_mute (mute_quiet quiet_readDentry) (hlasts path)).bind fun d => .ite (.ite trivial ?_) ?_
    · exact (frames_delete hc (hset true)).bind fun _ => herase
    · exact (frames_delete hc (hset false)).bind fun _ => herase

/-- Every step of a request changes objects only as the request may, whatever other requests do in between. -/
theorem frames_request {fuel : Nat} (r : Request) (hT : ∀ m key v, r.Sets m key v → T m key v) :
    Frames view T (fun _ => True) (r.prog opt (s3Stor c) fuel) fun _ _ => True := by
  have hreads := reads_confined hc.toConfined
  cases r with
  | find => exact Prog.Moves.map ((frames_findDentry hreads).post fun _ _ _ => trivial)
  | create => exact Prog.Moves.map (frames_createDentry hc hT)
  | remove => exact frames_removeDentry hc hT
  | load => exact Prog.Moves.map (frames_mute (mute_loadSubDentries hreads) lasts_true)
  | updateSize => exact frames_mute (mute_quiet quiet_updateInode) lasts_true

end

end MetaImpl

end Catfs
