import Catfs.Theorems.ObjectTimes

/-! # The attributes of a new entry after a remount

`create_dentry` gives the new entry a mode and the owner of its directory, but only an empty object reaches the bucket:
`put_file` sends no metadata and `head_file` reads none. Another mount falls back on fixed permissions and on its own owner. -/

namespace Catfs

open Lib MetaM LocalMemMeta
open EStateM (Result)

/-- `mode & 0777` -/
def permBits (mode : Mode) : Mode := mode &&& 0o777#32

/-- The permissions that `obj2inode` gives an object without a mode. -/
def defaultPerm (isDir : Bool) : Mode := if isDir then 0o766#32 else 0o644#32

/-- The permissions and the owner. -/
structure Inode.SameAccess (i j : Inode) : Prop where
  perm : permBits i.mode = permBits j.mode
  uid : i.uid = j.uid
  gid : i.gid = j.gid

namespace MetaImpl
variable {σ : Type} {c : S3Client σ} {view : σ → Bucket} {opt : MetaOpt} {s s₁ s₂ : World σ} {m : LocalMemMeta} {t : σ}
  {pino ino : InodeID} {p a d : Addr} {n : Str} {mode : Mode} {isDir : Bool} {now : Timespec} {garbage : Garbage}

/-- The inode of an object: nothing of its attributes comes from the response. -/
theorem objInode_access {g : Garbage} {size lastModified : Nat} :
    permBits (m.objInode now (objInfo g [] size lastModified) isDir).mode = defaultPerm isDir ∧
    (m.objInode now (objInfo g [] size lastModified) isDir).uid = m.opt.uid ∧
    (m.objInode now (objInfo g [] size lastModified) isDir).gid = m.opt.gid := by
  refine ⟨?_, rfl, rfl⟩
  cases isDir with
  | false => exact (by decide : permBits (S_IFREG ||| 0o644#32) = 0o644#32)
  | true => exact (by decide : permBits (S_IFDIR ||| 0o766#32) = 0o766#32)

/-- A lookup of a name that is not cached gives the entry the attributes of the mount. -/
theorem find_access {body : List Byte} (hc : c.Serves view) (hm : Inv m) (ha : m.lookup ino = some a)
    (hno : (m.heap a).getChild n = none) (hbody : view t (entryKey (m.dirPrefix a ++ n) isDir) = some body)
    (halone : isDir = true → ¬ (view t).Holds (m.dirPrefix a ++ n)) (now : Timespec) (garbage : Garbage) : ∃ ch s,
      (findDentry opt (s3Stor c) ino n false).run ⟨m, t, now, garbage⟩ = .ok (some ch) s ∧
      permBits (s.cache.heap ch).inode.mode = defaultPerm isDir ∧ (s.cache.heap ch).inode.uid = m.opt.uid ∧
      (s.cache.heap ch).inode.gid = m.opt.gid := by
  have halloc := (hm.indexed _ _ ha).1
  obtain ⟨t₁, r, t', -, -, -, g, hremote⟩ := run_getRemoteObj_object hc hm halloc hbody halone now garbage
  refine ⟨_, _, run_findDentry_found hm ha hno hremote rfl, ?_⟩
  have hnew := heap_link_new (m := m.issue) n (m.objInode now (objInfo g [] body.length r.lastModified) isDir) halloc
  rw [heapNext_issue] at hnew
  have hinode : (((m.issue.link a n (m.objInode now (objInfo g [] body.length r.lastModified) isDir)).set m.heapNext
      (·.incTtl now opt.dcacheTimeout)).heap m.heapNext).inode = m.objInode now (objInfo g [] body.length r.lastModified) isDir := by
    rw [heap_set_self, hnew]
    rfl
  rw [hinode]
  exact objInode_access

/-- The permissions and the owner of a new entry survive a remount exactly when they are those that the other mount gives to
    any entry of the kind. -/
theorem access_survives_iff (hc : c.Serves view) (ho : c.InOrder view) (hs : Reachable opt s.cache)
    (hp : s.cache.lookup pino = some p) (hdir : (s.cache.heap p).isDir = true) (hne : n ≠ [])
    (hfind : (findDentry opt (s3Stor c) pino n false).run s = .ok none s₁)
    (hcreate : (createDentry opt (s3Stor c) pino n mode).run s = .ok d s₂)
    {σ' : Type} {c' : S3Client σ'} {view' : σ' → Bucket} (hc' : c'.Serves view') {opt' : MetaOpt} {u : σ'}
    (hview : view' u = view s₂.stor) (hm : Reachable opt' m) (ha : m.lookup ino = some a)
    (hpath : m.dirPrefix a = s.cache.dirPrefix p) (hempty : (m.heap a).getChild n = none) (now : Timespec) (garbage : Garbage) :
    ∃ ch s', (findDentry opt' (s3Stor c') ino n false).run ⟨m, u, now, garbage⟩ = .ok (some ch) s' ∧
      (Inode.SameAccess (s'.cache.heap ch).inode (s₂.cache.heap d).inode ↔
        permBits mode = defaultPerm (mode &&& S_IFDIR != 0) ∧ (s.cache.heap p).inode.uid = opt'.uid ∧
        (s.cache.heap p).inode.gid = opt'.gid) := by
  obtain ⟨-, hcache, hsought, habsent, -⟩ := find_nothing hc ho hs.inv hp hdir hfind
  obtain ⟨t', hrun, hput⟩ := run_createDentry_new mode hc hs.inv hp hne hfind hcache
  obtain ⟨rfl, rfl⟩ := Result.ok.inj (hcreate.symm.trans hrun)
  have halloc := (hs.inv.indexed _ _ hp).1
  have hbucket : view' u = (view s.stor).put (entryKey (m.dirPrefix a ++ n) (mode &&& S_IFDIR != 0)) [] := by
    rw [hview, hpath, ← hsought]
    exact hput
  rw [← hpath] at habsent
  have hmarks := Bucket.marks_put (mode &&& S_IFDIR != 0) habsent
  rw [← hbucket] at hmarks
  have hbody : view' u (entryKey (m.dirPrefix a ++ n) (mode &&& S_IFDIR != 0)) = some [] := by
    rw [hbucket, Bucket.put, Function.update_self]
  obtain ⟨ch, s', hfound, hperm, huid, hgid⟩ := find_access hc' hm.inv ha hempty hbody hmarks.alone now garbage
  refine ⟨ch, s', hfound, ?_⟩
  have hnew := heap_link_new (m := s.cache.issue) n
    (s.cache.newInode s₁.now mode (s.cache.heap p).inode.gid (s.cache.heap p).inode.uid) halloc
  rw [heapNext_issue] at hnew
  rw [hm.options] at huid hgid
  constructor
  · intro h
    have hmode := h.perm
    have howner := h.uid
    have hgroup := h.gid
    rw [hnew] at hmode howner hgroup
    exact ⟨hmode.symm.trans hperm, howner.symm.trans huid, hgroup.symm.trans hgid⟩
  · rintro ⟨hmode, howner, hgroup⟩
    refine ⟨?_, ?_, ?_⟩
    · rw [hperm, hnew]
      exact hmode.symm
    · rw [huid, hnew]
      exact howner.symm
    · rw [hgid, hnew]
      exact hgroup.symm

/-- A mount that made the file `f` with a mode. -/
def madeFile (mode : Mode) : World Log :=
  endState ((createDentry ⟨0, 0, 60⟩ (s3Stor Log.client) ROOT_INODE_ID ['f'] mode).run (newWorld []))

/-- Another mount over its bucket, after `f` was looked up. -/
def lookedUpAgain (mode : Mode) : World Log :=
  endState ((findDentry ⟨0, 0, 60⟩ (s3Stor Log.client) ROOT_INODE_ID ['f'] false).run (newWorld (madeFile mode).stor))

/-- The file of a mount without owners, with the mode that every file has. -/
theorem access_survives_iff_default : ∃ d ch s',
    (createDentry ⟨0, 0, 60⟩ (s3Stor Log.client) ROOT_INODE_ID ['f'] (S_IFREG ||| 0o644#32)).run (newWorld []) =
      .ok d (madeFile (S_IFREG ||| 0o644#32)) ∧
    (findDentry ⟨0, 0, 60⟩ (s3Stor Log.client) ROOT_INODE_ID ['f'] false).run (newWorld (madeFile (S_IFREG ||| 0o644#32)).stor) =
      .ok (some ch) s' ∧
    Inode.SameAccess (s'.cache.heap ch).inode ((madeFile (S_IFREG ||| 0o644#32)).cache.heap d).inode := by
  have hfind : (findDentry ⟨0, 0, 60⟩ (s3Stor Log.client) ROOT_INODE_ID ['f'] false).run (newWorld []) = .ok none _ :=
    eq_of_foundNothing (by decide +kernel)
  have hreturned : returned ((createDentry ⟨0, 0, 60⟩ (s3Stor Log.client) ROOT_INODE_ID ['f'] (S_IFREG ||| 0o644#32)).run
      (newWorld [])) = true := by decide +kernel
  obtain ⟨d, hcreate⟩ := ok_of_returned hreturned
  have hnew : Reachable ⟨0, 0, 60⟩ newCache := .new ⟨0, 0⟩
  have hroot : newCache.lookup ROOT_INODE_ID = some 0 := rfl
  have hdir : ((newWorld ([] : Log)).cache.heap 0).isDir = true := by decide
  obtain ⟨ch, s', hrun, hsame⟩ := access_survives_iff Log.client_serves Log.client_inOrder hnew hroot hdir (by decide) hfind
    hcreate Log.client_serves rfl hnew hroot rfl rfl ⟨0, 0⟩ noGarbage
  exact ⟨d, ch, s', hcreate, hrun, hsame.mpr ⟨by decide, rfl, rfl⟩⟩

/-- A private file is open to all after a remount. -/
theorem private_file_opened : permBits ((madeFile (S_IFREG ||| 0o600#32)).cache.heap 1).inode.mode = 0o600#32 ∧
    (((lookedUpAgain (S_IFREG ||| 0o600#32)).cache.heap 0).getChild ['f'] = some 1) ∧
    permBits ((lookedUpAgain (S_IFREG ||| 0o600#32)).cache.heap 1).inode.mode = 0o644#32 := by
  refine ⟨?_, ?_, ?_⟩ <;> decide +kernel

end MetaImpl

end Catfs
