import Catfs.Theorems.Handles
import Catfs.Theorems.RemovedFile

/-! # Runs after a removal

Requests on names and on handles, in any order. The name stays unlinked as long as each of them avoids its path. -/

namespace Catfs

open Lib CatFS MetaImpl MetaM
open EStateM (Result)

section
variable {σ α : Type} {c : S3Client σ} {view : σ → Bucket} {opt : MetaOpt} {ino : InodeID} {p : Addr} {name path : Str}
  {fs fs₁ : CatFS σ} {hno : HandleID}

/-- The request does not put an object at or below the path: it does not create one there, and does not release a
    handle there whose writer accepted data. -/
def FsReq.Avoids (path : Str) (fs : CatFS σ) : FsReq → Prop
  | .request _ r => ¬ r.Creates path fs.world.cache
  | .releaseFile hno => ∀ file, fs.openFiles hno = some file → file.writer.nextWriteOffset ≠ 0 →
      ¬ AtOrBelow path file.writer.filePath
  | _ => True

/-- The states that requests which avoid the path lead to. Between two of them the clock moves in any way, and the store
    in any way that leaves the bucket as it is. -/
inductive Avoiding (opt : MetaOpt) (st : Stor σ) (view : σ → Bucket) (path : Str) (fs₁ : CatFS σ) : CatFS σ → Prop where
  | start : Avoiding opt st view path fs₁ fs₁
  | request {fs : CatFS σ} (h : Avoiding opt st view path fs₁ fs) (r : FsReq) (hr : r.Avoids path fs) :
      Avoiding opt st view path fs₁ (endState (r.exec opt st fs))
  | outside {fs : CatFS σ} (h : Avoiding opt st view path fs₁ fs) {w : World σ} (hw : w.cache = fs.world.cache)
      (hv : view w.stor = view fs.world.stor) : Avoiding opt st view path fs₁ { fs with world := w }

/-! ### The parts of a request -/

section
variable (view ino p name path)

/-- The name stays unlinked from a state with `P`, and what is returned has `Q`. -/
abbrev SparesUnlinked (P : CatFS σ → Prop) (f : FsM σ α) (Q : α → CatFS σ → Prop) : Prop :=
  Behaves (fun fs => Unlinked view ino p name path fs.world ∧ P fs) f
    (fun a fs => Unlinked view ino p name path fs.world ∧ Q a fs) fun _ fs => Unlinked view ino p name path fs.world

end

variable {P : CatFS σ → Prop}

/-- Only the store changed, and nothing at or below the path. -/
theorem MetaImpl.Unlinked.setStor {w : World σ} (h : Unlinked view ino p name path w) {t : σ}
    (ht : ∀ k, AtOrBelow path k → view t k = view w.stor k) : Unlinked view ino p name path { w with stor := t } :=
  h.later h.inv (.refl _) h.child fun k hk hholds => by rwa [Bucket.Holds, ← ht k hk]

theorem spares_runMeta {q : MetaM σ α} {P : World σ → Prop} {Q : α → World σ → Prop} (hq : LeavesUnlinked view ino p name path P q Q) :
    SparesUnlinked view ino p name path (fun fs => P fs.world) (runMeta q) fun a fs => Q a fs.world := by
  intro fs hfs
  have hend := hq fs.world hfs
  rw [runMeta, zoom]
  cases hr : q.run fs.world <;> rw [hr] at hend <;> exact hend

theorem spares_openFile : SparesUnlinked view ino p name path P (openFile hno : FsM σ _) fun file fs =>
    fs.openFiles hno = some file ∧ P fs := by
  intro fs hfs
  cases hf : fs.openFiles hno with
  | none =>
    rw [run_openFile_none hf]
    exact hfs.1
  | some file =>
    rw [run_openFile hf]
    exact ⟨hfs.1, hf, hfs.2⟩

theorem spares_modifyFile {f : OpenFile → OpenFile} :
    SparesUnlinked view ino p name path (fun _ => True) (modifyFile hno f : FsM σ _) fun _ _ => True := fun _ hfs => hfs

theorem spares_runWriter {file : OpenFile} {q : WriterM σ α}
    (hq : ∀ t k, AtOrBelow path k → view (endState (q.run (file.writer, t))).2 k = view t k) :
    SparesUnlinked view ino p name path (fun _ => True) (runWriter hno file q) fun _ _ => True := by
  intro fs hfs
  have hend := hq fs.world.stor
  rw [run_runWriter]
  cases hr : q.run (file.writer, fs.world.stor) with
  | ok x s =>
    rw [hr] at hend
    exact ⟨hfs.1.setStor hend, trivial⟩
  | error e s =>
    rw [hr] at hend
    exact hfs.1.setStor hend

/-! ### The requests -/

theorem spares_openfile {pino : InodeID} {hasWrote : Bool} :
    SparesUnlinked view ino p name path (fun _ => True) (openfile pino hasWrote : FsM σ _) fun _ _ => True := by
  rintro fs ⟨hfs, -⟩
  cases ha : fs.world.cache.lookup pino with
  | none =>
    rw [run_openfile_none ha]
    exact hfs
  | some a =>
    obtain ⟨path', hpath⟩ := LocalMemMeta.fullPath_some hfs.inv (hfs.inv.indexed _ _ ha).1
    rw [run_openfile ha hpath]
    exact ⟨hfs, trivial⟩

section
variable (hc : c.Confined view)
include hc

theorem spares_readfile {off size : Nat} :
    SparesUnlinked view ino p name path (fun _ => True) (readfile (s3Stor c) hno off size) fun _ _ => True := by
  refine Behaves.bind spares_openFile fun file => .ite (fun _ => .pure fun _ hs => ⟨hs.1, trivial⟩) fun _ =>
    .ite (fun _ => .pure fun _ hs => ⟨hs.1, trivial⟩) fun _ => ?_
  have hget : ∀ req, SparesUnlinked view ino p name path (fun fs => fs.openFiles hno = some file ∧ True)
      (zoom (fun fs : CatFS σ => fs.world.stor) (fun t fs => fs.setStor t) ((s3Stor c).readFile req)) fun _ _ => True := by
    rintro req fs ⟨hfs, -⟩
    have hview : view (endState ((s3Stor c).readFile req fs.world.stor)) = view fs.world.stor := by
      have hend : endState ((s3Stor c).readFile req fs.world.stor) =
          endState (c.getObject req.objKey req.off (lastByte req.off req.size) fs.world.stor) :=
        (endState_bind_pure _ _ _).trans (endState_orServerError _ _)
      rw [hend, hc.get]
    rw [zoom]
    cases hr : (s3Stor c).readFile req fs.world.stor with
    | ok x t =>
      rw [hr] at hview
      exact ⟨hfs.setStor fun k _ => congrFun hview k, trivial⟩
    | error e t =>
      rw [hr] at hview
      exact hfs.setStor fun k _ => congrFun hview k
  exact Behaves.bind (hget _) fun _ => .pure fun _ hs => hs

theorem spares_writefile {off : Nat} {data : List Byte} :
    SparesUnlinked view ino p name path (fun _ => True) (writefile (s3Stor c) hno off data) fun _ _ => True := by
  have hopen : SparesUnlinked view ino p name path (fun _ => True) (openFile hno : FsM σ _) fun _ _ => True :=
    spares_openFile.post (fun _ _ hs => ⟨hs.1, trivial⟩) fun _ _ h => h
  have hrun : ∀ file : OpenFile, SparesUnlinked view ino p name path (fun _ => True)
      (runWriter hno file (SequenceWriter.write (s3Stor c).toUploadStor off data.length data)) fun _ _ => True :=
    fun file => spares_runWriter fun t k _ => congrFun (write_view hc) k
  have hsize : ∀ ino' size, SparesUnlinked view ino p name path (fun _ => True) (runMeta (updateInodeSize ino' size)) fun _ _ => True :=
    fun _ _ => spares_runMeta (leaves_quiet quiet_updateInode)
  refine Behaves.bind hopen fun _ => Behaves.bind ?_ fun _ => Behaves.bind hopen fun file => .ite (fun _ => ?_) fun _ => ?_
  · exact Behaves.bind spares_modifyFile fun _ => Behaves.bind hopen fun file => Behaves.bind (hrun file) fun _ =>
      spares_modifyFile
  · exact Behaves.bind (hsize _ _) fun _ => .pure fun _ hs => hs
  · exact .pure fun _ hs => hs

theorem spares_releaseFile : SparesUnlinked view ino p name path (fun fs => FsReq.Avoids path fs (.releaseFile hno))
    (releaseFile (s3Stor c) hno) fun _ _ => True := by
  refine Behaves.bind spares_openFile fun file fs hfs => ?_
  have hrelease : SparesUnlinked view ino p name path (fun _ => True)
      (runWriter hno file (SequenceWriter.release (s3Stor c).toUploadStor)) fun _ _ => True :=
    spares_runWriter fun t k hk => release_view hc fun h0 he => hfs.2.2 file hfs.2.1 h0 (he ▸ hk)
  exact Behaves.bind hrelease (fun _ => spares_modifyFile) fs ⟨hfs.1, trivial⟩

/-- A request that avoids the path leaves the name unlinked. -/
theorem spares_request (r : FsReq) :
    SparesUnlinked view ino p name path (fun fs => r.Avoids path fs) (r.exec opt (s3Stor c)) fun _ _ => True := by
  have hdrop : ∀ {β : Type} {f : FsM σ β}, SparesUnlinked view ino p name path (fun _ => True) f (fun _ _ => True) →
      SparesUnlinked view ino p name path (fun _ => True) (do let _ ← f) fun _ _ => True := fun hf =>
    Behaves.bind hf fun _ => .pure fun _ hs => hs
  cases r with
  | request fuel r => exact spares_runMeta (leaves_request hc r)
  | openfile ino' hasWrote => exact hdrop spares_openfile
  | readfile hno off size => exact hdrop (spares_readfile hc)
  | writefile hno off data => exact hdrop (spares_writefile hc)
  | releaseFile hno => exact spares_releaseFile hc

/-! ### Runs -/

theorem Avoiding.unlinked (h : Avoiding opt (s3Stor c) view path fs₁ fs) (hfs : Unlinked view ino p name path fs₁.world) :
    Unlinked view ino p name path fs.world := by
  induction h with
  | start => exact hfs
  | @request fs _ r hr ih =>
    have hspares : SparesUnlinked view ino p name path (fun fs => r.Avoids path fs) (r.exec opt (s3Stor c)) fun _ _ => True :=
      spares_request hc r
    have hend := hspares fs ⟨ih, hr⟩
    cases hrun : r.exec opt (s3Stor c) fs <;> rw [hrun] at hend
    · exact hend.1
    · exact hend
  | @outside fs _ w hw hv ih =>
    refine ⟨?_, ?_, ?_, ?_, ?_⟩
    · show w.cache.Inv
      rw [hw]
      exact ih.inv
    · rw [hw]
      exact ih.dir
    · rw [hw]
      exact ih.key
    · rw [hw]
      exact ih.child
    · rw [hv]
      exact ih.bucket

/-- After the removal of a file, the bucket does not hold its key and a lookup does not find it, in every state that
    requests lead to of which none puts an object at or below the path. -/
theorem stays_unlinked {fs₀ fs₂ : CatFS σ} {steps : List (MetaAct × World σ × World σ)} {released : List HandleID} {a : Addr}
    {w : World σ} (hm : Mounted opt (s3Stor c) fs₀ steps released)
    (hfind : (findDentry opt (s3Stor c) ino name false).run fs₀.world = .ok (some a) w)
    (hfile : (w.cache.heap a).isDir = false) (hpath : w.cache.fullPath a = some path)
    (hremove : runMeta (removeDentry opt (s3Stor c) ino name) fs₀ = .ok () fs₁)
    (hbelow : ∀ rest, ¬ (view fs₁.world.stor).Holds (path ++ slash ++ rest))
    (hrun : Avoiding opt (s3Stor c) view path fs₁ fs₂) : ¬ (view fs₂.world.stor).Holds path ∧
      (∀ d w', (findDentry opt (s3Stor c) ino name false).run fs₂.world ≠ .ok (some d) w') ∧
      (c.AnswersAll → ∃ w', (findDentry opt (s3Stor c) ino name false).run fs₂.world = .ok none w') := by
  have hremoved : (removeDentry opt (s3Stor c) ino name).run fs₀.world = .ok () fs₁.world := by
    rw [runMeta, zoom] at hremove
    cases hr : (removeDentry opt (s3Stor c) ino name).run fs₀.world with
    | ok u w' =>
      rw [hr] at hremove
      obtain ⟨-, rfl⟩ := Result.ok.inj hremove
      rfl
    | error e w' =>
      rw [hr] at hremove
      cases hremove
  obtain ⟨p, hstart⟩ := unlinked_of_remove hc hm.traced.indexed.inv hfind hfile hpath hremoved hbelow
  have hs := hrun.unlinked hc hstart
  refine ⟨hs.bucket path (.inl rfl), fun d w' hfound => ?_, fun ha => run_findDentry_unlinked hc ha hs⟩
  have hleaves : LeavesUnlinked view ino p name path (fun s => DirAt ino p s.cache) (findDentry opt (s3Stor c) ino name false)
      fun r _ => ∀ d, r = some d → p = p → name ≠ name := leaves_findDentry hc
  have hnone := hleaves fs₂.world ⟨hs, hs.dir, hs.alloc⟩
  rw [hfound] at hnone
  exact hnone.2 d rfl rfl rfl

end

end

/-! ### A handle with data, and one without -/

theorem Log.client_confined : Log.client.Confined Log.bucket where
  head t key r t' h := by
    cases hk : t.bucket key with
    | some body =>
      rw [Bucket.Holds, hk]
      rfl
    | none =>
      simp only [Log.client, hk] at h
      cases h
  headKeeps t key := by
    cases hk : t.bucket key <;> simp only [Log.client, hk] <;> rfl
  list t req r t' _ h := by
    obtain ⟨rfl, rfl⟩ := Result.ok.inj h
    exact Log.partOfListing req
  listKeeps _ _ := rfl
  get t key first last := by
    cases hk : t.bucket key <;> simp only [Log.client, hk] <;> rfl
  put t key body k hk := by
    by_cases hnil : k = []
    · rw [hnil, Log.bucket_nil, Log.bucket_nil]
    · exact (Log.bucket_append hnil _).trans (by simp [Log.objectFrom, Ne.symm hk])
  delete t key k h := by
    have hview : Log.bucket (endState (Log.client.deleteObject key t)) = t.bucket.delete key := Log.bucket_deleteFile
    rw [hview, Bucket.Holds, Bucket.delete, Function.update_apply] at h
    split at h
    · cases h
    · exact h
  deleted t key t' h hholds := by
    obtain ⟨-, rfl⟩ := Result.ok.inj h
    rw [Log.bucket_deleteFile, Bucket.Holds, Bucket.delete, Function.update_self] at hholds
    cases hholds
  create t key := by
    funext k
    by_cases hnil : k = []
    · rw [hnil, Log.bucket_nil, Log.bucket_nil]
    · exact Log.bucket_append hnil _
  part t key uploadId n body := by
    funext k
    by_cases hnil : k = []
    · rw [hnil, Log.bucket_nil, Log.bucket_nil]
    · exact Log.bucket_append hnil _
  complete t key uploadId k hk := by
    by_cases hnil : k = []
    · rw [hnil, Log.bucket_nil, Log.bucket_nil]
    · exact (Log.bucket_append hnil _).trans (by simp [Log.objectFrom, Ne.symm hk])

/-- Files `f` and `g` are created and opened, and something is written to `g`. -/
def openBoth : List FsReq := [.request 1 (.create ROOT_INODE_ID ['f'] S_IFREG), .request 1 (.create ROOT_INODE_ID ['g'] S_IFREG),
  .openfile 2 false, .openfile 3 false, .writefile 1 0 [1]]

/-- The lookup of `f`. -/
def lookF : MetaM Log (Option Addr) := findDentry ⟨0, 0, 60⟩ (s3Stor Log.client) ROOT_INODE_ID ['f'] false

/-- The removal of `f`. -/
def removeF : FsM Log Unit := runMeta (removeDentry ⟨0, 0, 60⟩ (s3Stor Log.client) ROOT_INODE_ID ['f'])

/-- The state after the removal of `f`. -/
def removedF (reqs : List FsReq) : CatFS Log := endState (removeF (runFs reqs).1)

/-- And after the release of a handle. -/
def releasedF (reqs : List FsReq) (hno : HandleID) : CatFS Log :=
  endState ((FsReq.releaseFile hno).exec ⟨0, 0, 60⟩ (s3Stor Log.client) (removedF reqs))

/-- And after the release of the other one. -/
def releasedBoth : CatFS Log :=
  endState ((FsReq.releaseFile 1).exec ⟨0, 0, 60⟩ (s3Stor Log.client) (releasedF openBoth 0))

/-- Nothing was written to `f`: both handles may be released after the removal. -/
theorem stays_unlinked_empty : ¬ (Log.bucket releasedBoth.world.stor).Holds ['f'] ∧
    (∀ d w', lookF.run releasedBoth.world ≠ .ok (some d) w') ∧
    (Log.client.AnswersAll → ∃ w', lookF.run releasedBoth.world = .ok none w') := by
  have hfound : foundEntry false ['f'] (lookF.run (runFs openBoth).1.world) = true := by decide +kernel
  obtain ⟨a, w, hfind, hfile, hpath⟩ := foundEntry_spec hfound
  have hremove : removeF (runFs openBoth).1 = .ok () (removedF openBoth) := unit_of_returned (by decide +kernel)
  have hkeys : Log.keys (removedF openBoth).world.stor = [['g']] := by decide +kernel
  have hbelow : ∀ rest, ¬ (Log.bucket (removedF openBoth).world.stor).Holds (['f'] ++ slash ++ rest) := by
    intro rest h
    have hmem := Log.mem_keys.mpr h
    rw [hkeys, List.mem_singleton] at hmem
    cases hmem
  have hnothing : ((removedF openBoth).openFiles 0).map (·.writer.nextWriteOffset) = some 0 := by decide +kernel
  have hother : ((releasedF openBoth 0).openFiles 1).map (·.writer.filePath) = some ['g'] := by decide +kernel
  have hfirst : (FsReq.releaseFile 0).Avoids ['f'] (removedF openBoth) := by
    intro file hopen h0
    rw [hopen] at hnothing
    exact absurd (Option.some.inj hnothing) h0
  have hsecond : (FsReq.releaseFile 1).Avoids ['f'] (releasedF openBoth 0) := by
    intro file hopen _ hbelow
    rw [hopen] at hother
    rw [show file.writer.filePath = ['g'] from Option.some.inj hother] at hbelow
    rcases hbelow with h | ⟨rest, h⟩ <;> cases h
  exact stays_unlinked Log.client_confined (mounted_runFs openBoth) hfind hfile hpath hremove hbelow
    ((Avoiding.start.request (.releaseFile 0) hfirst).request (.releaseFile 1) hsecond)

/-- Data was written to `f`, and the release of its handle after the removal brings the file back. -/
theorem unlinked_returns : ∃ a w, Mounted ⟨0, 0, 60⟩ (s3Stor Log.client) (runFs (openBoth ++ [.writefile 0 0 [1]])).1
      (runFs (openBoth ++ [.writefile 0 0 [1]])).2 [] ∧
    lookF.run (runFs (openBoth ++ [.writefile 0 0 [1]])).1.world = .ok (some a) w ∧ (w.cache.heap a).isDir = false ∧
    w.cache.fullPath a = some ['f'] ∧
    removeF (runFs (openBoth ++ [.writefile 0 0 [1]])).1 = .ok () (removedF (openBoth ++ [.writefile 0 0 [1]])) ∧
    ¬ (Log.bucket (removedF (openBoth ++ [.writefile 0 0 [1]])).world.stor).Holds ['f'] ∧
    (Log.bucket (releasedF (openBoth ++ [.writefile 0 0 [1]]) 0).world.stor).Holds ['f'] ∧
    ∃ d w', lookF.run (releasedF (openBoth ++ [.writefile 0 0 [1]]) 0).world = .ok (some d) w' := by
  have hfound : foundEntry false ['f'] (lookF.run (runFs (openBoth ++ [.writefile 0 0 [1]])).1.world) = true := by decide +kernel
  obtain ⟨a, w, hfind, hfile, hpath⟩ := foundEntry_spec hfound
  have hagain : foundEntry false ['f'] (lookF.run (releasedF (openBoth ++ [.writefile 0 0 [1]]) 0).world) = true := by decide +kernel
  obtain ⟨d, w', hfind', -⟩ := foundEntry_spec hagain
  have hgone : ['f'] ∉ Log.keys (removedF (openBoth ++ [.writefile 0 0 [1]])).world.stor := by decide +kernel
  have hback : ['f'] ∈ Log.keys (releasedF (openBoth ++ [.writefile 0 0 [1]]) 0).world.stor := by decide +kernel
  exact ⟨a, w, mounted_runFs _, hfind, hfile, hpath, unit_of_returned (by decide +kernel), fun h => hgone (Log.mem_keys.mpr h),
    Log.mem_keys.mp hback, d, w', hfind'⟩

end Catfs
