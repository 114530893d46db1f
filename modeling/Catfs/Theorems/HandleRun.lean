import Catfs.Fs
import Catfs.Theorems.Paths

/-! # Runs of the file requests

`openfile`, `writefile` and `release_file` as equations over the runs of the writer. -/

namespace Catfs

open Lib
open EStateM (Result)

variable {σ α : Type} {st : Stor σ} {fs : CatFS σ} {h : HandleID} {file : OpenFile} {w : SequenceWriter} {t : σ} {e : Err}

/-- What the first call of `OpenFile::write` notes. -/
def OpenFile.beginWrite (file : OpenFile) : OpenFile :=
  if file.firstWrite then file else { file with firstWrite := true, isWriting := true }

@[simp] theorem OpenFile.beginWrite_writer : file.beginWrite.writer = file.writer := by
  unfold beginWrite
  split <;> rfl

@[simp] theorem OpenFile.beginWrite_rtfile : file.beginWrite.rtfile = file.rtfile := by
  unfold beginWrite
  split <;> rfl

@[simp] theorem OpenFile.beginWrite_ino : file.beginWrite.ino = file.ino := by
  unfold beginWrite
  split <;> rfl

/-- The open file after its writer accepted data and became `w`. -/
def OpenFile.wrote (file : OpenFile) (w : SequenceWriter) : OpenFile :=
  { file.beginWrite with writer := w, hasWrote := true, rtfile := { file.rtfile with size := w.nextWriteOffset } }

@[simp] theorem OpenFile.wrote_ino : (file.wrote w).ino = file.ino := beginWrite_ino

namespace CatFS

theorem run_openFile (hf : fs.openFiles h = some file) : openFile h fs = .ok file fs := by
  have hg : (get : FsM σ _) fs = .ok fs fs := rfl
  rw [openFile, bind_ok hg, hf]
  rfl

theorem run_openFile_none (hf : fs.openFiles h = none) : openFile h fs = .error (.int ENOENT) fs := by
  have hg : (get : FsM σ _) fs = .ok fs fs := rfl
  rw [openFile, bind_ok hg, hf]
  rfl

theorem run_modifyFile {f : OpenFile → OpenFile} (hf : fs.openFiles h = some file) :
    modifyFile h f fs = .ok () (fs.setFile h (f file)) := by
  have : (fs.openFiles h).map f = some (f file) := by rw [hf]; rfl
  show Result.ok () { fs with openFiles := Function.update fs.openFiles h ((fs.openFiles h).map f) } = _
  rw [this]
  rfl

theorem run_runWriter {p : WriterM σ α} : runWriter h file p fs = match p.run (file.writer, fs.world.stor) with
    | .ok a (w, t) => .ok a ((fs.setFile h { file with writer := w }).setStor t)
    | .error e (w, t) => .error e ((fs.setFile h { file with writer := w }).setStor t) := by
  simp only [runWriter, zoom]
  cases p.run (file.writer, fs.world.stor) <;> rfl

@[simp] theorem setFile_self : (fs.setFile h file).openFiles h = some file := by simp [setFile]

@[simp] theorem setFile_setStor_self : ((fs.setFile h file).setStor t).openFiles h = some file := setFile_self

@[simp] theorem setFile_setFile {file' : OpenFile} : (fs.setFile h file).setFile h file' = fs.setFile h file' := by
  simp [setFile]

@[simp] theorem setStor_openFiles : (fs.setStor t).openFiles = fs.openFiles := rfl
@[simp] theorem setStor_stor : (fs.setStor t).world.stor = t := rfl
@[simp] theorem setFile_world : (fs.setFile h file).world = fs.world := rfl
@[simp] theorem setStor_setFile {file' : OpenFile} : (fs.setStor t).setFile h file' = (fs.setFile h file').setStor t := rfl

/-- The cache changed to `m`. -/
def setCache (fs : CatFS σ) (m : LocalMemMeta) : CatFS σ := { fs with world := { fs.world with cache := m } }

variable {ino : InodeID} {a : Addr} {hasWrote : Bool}

theorem run_metaGetDentry : runMeta (MetaImpl.getDentry ino) fs = .ok (fs.world.cache.lookup ino) fs := rfl

theorem run_metaFullPath {path : Str} (h : fs.world.cache.fullPath a = some path) :
    runMeta (MetaImpl.fullPath a) fs = .ok path fs := by
  simp only [runMeta, zoom, MetaImpl.fullPath, MetaM.cache, Prog.run_lift, MetaM.onCache]
  rw [LocalMemMeta.run_getFullPath h]

theorem run_metaReadDentry : runMeta (MetaM.readDentry a) fs = .ok (fs.world.cache.heap a) fs := rfl

theorem run_openfile_none (ha : fs.world.cache.lookup ino = none) : openfile ino hasWrote fs = .error .enoent fs := by
  rw [openfile, bind_ok run_metaGetDentry, ha]
  rfl

theorem run_openfile {path : Str} (ha : fs.world.cache.lookup ino = some a) (hp : fs.world.cache.fullPath a = some path) :
    openfile ino hasWrote fs = .ok fs.nextHandleId (setFile { fs with nextHandleId := fs.nextHandleId + 1 }
      fs.nextHandleId (.new (fs.world.cache.heap a).inode.ino fs.nextHandleId
        { path, size := (fs.world.cache.heap a).inode.size } hasWrote)) := by
  have hn : getNextHandleId fs = .ok fs.nextHandleId { fs with nextHandleId := fs.nextHandleId + 1 } := rfl
  have hp' : runMeta (MetaImpl.fullPath a) { fs with nextHandleId := fs.nextHandleId + 1 } =
    .ok path { fs with nextHandleId := fs.nextHandleId + 1 } := run_metaFullPath hp
  rw [openfile, bind_ok run_metaGetDentry, ha]
  dsimp only
  rw [bind_ok hn, bind_ok hp', bind_ok run_metaReadDentry]
  rfl

variable {off n : Nat} {data : List Byte} {k : Int}

theorem run_write_ok (hf : fs.openFiles h = some file)
    (hw : (SequenceWriter.write st.toUploadStor off n data).run (file.writer, fs.world.stor) = .ok k (w, t)) :
    OpenFile.write st h off n data fs = .ok () ((fs.setFile h (file.wrote w)).setStor t) := by
  have h₁ : modifyFile h (fun file => if file.firstWrite then file else { file with firstWrite := true, isWriting := true }) fs =
      .ok () (fs.setFile h file.beginWrite) := run_modifyFile hf
  have h₂ : runWriter h file.beginWrite (SequenceWriter.write st.toUploadStor off n data) (fs.setFile h file.beginWrite) =
      .ok k ((fs.setFile h { file.beginWrite with writer := w }).setStor t) := by
    rw [run_runWriter]
    simp [hw]
  rw [OpenFile.write, bind_ok h₁, bind_ok (run_openFile setFile_self), bind_ok h₂]
  rw [run_modifyFile setFile_setStor_self]
  simp [OpenFile.wrote, SequenceWriter.fileSize]

theorem run_write_error (hf : fs.openFiles h = some file)
    (hw : (SequenceWriter.write st.toUploadStor off n data).run (file.writer, fs.world.stor) = .error e (w, t)) :
    OpenFile.write st h off n data fs =
      .error e ((fs.setFile h { file.beginWrite with writer := w }).setStor t) := by
  have h₁ : modifyFile h (fun file => if file.firstWrite then file else { file with firstWrite := true, isWriting := true }) fs =
      .ok () (fs.setFile h file.beginWrite) := run_modifyFile hf
  have h₂ : runWriter h file.beginWrite (SequenceWriter.write st.toUploadStor off n data) (fs.setFile h file.beginWrite) =
      .error e ((fs.setFile h { file.beginWrite with writer := w }).setStor t) := by
    rw [run_runWriter]
    simp [hw]
  rw [OpenFile.write, bind_ok h₁, bind_ok (run_openFile setFile_self), bind_error h₂]

/-- The attributes that `update_inode_size` sets. -/
def sizeUpdate (size : Nat) : InodeUpdateAttr := { size := some size, mode := none, uid := none, gid := none }

theorem run_updateInodeSize {ino : InodeID} {size : Nat} {a : Addr} (ha : fs.world.cache.lookup ino = some a) :
    runMeta (MetaImpl.updateInodeSize ino size) fs =
      .ok () (fs.setCache (fs.world.cache.set a (LocalMemMeta.InodeUpdateAttr.apply (sizeUpdate size)))) := by
  simp only [runMeta, zoom, MetaImpl.updateInodeSize, MetaImpl.updateInode, MetaM.cache, Prog.run_lift, MetaM.onCache]
  rw [LocalMemMeta.run_updateInode ha]
  rfl

theorem run_updateInodeSize_none {ino : InodeID} {size : Nat} (ha : fs.world.cache.lookup ino = none) :
    runMeta (MetaImpl.updateInodeSize ino size) fs = .error (.invalidInodeID ino) fs := by
  simp only [runMeta, zoom, MetaImpl.updateInodeSize, MetaImpl.updateInode, MetaM.cache, Prog.run_lift, MetaM.onCache]
  rw [LocalMemMeta.run_updateInode_none ha]

theorem writefile_ok {a : Addr} (hf : fs.openFiles h = some file) (ha : fs.world.cache.lookup file.ino = some a)
    (hw : (SequenceWriter.write st.toUploadStor off data.length data).run (file.writer, fs.world.stor) = .ok k (w, t)) :
    writefile st h off data fs = .ok data.length (((fs.setFile h (file.wrote w)).setStor t).setCache
      (fs.world.cache.set a (LocalMemMeta.InodeUpdateAttr.apply (sizeUpdate w.nextWriteOffset)))) := by
  rw [writefile, bind_ok (run_openFile hf), bind_ok (run_write_ok hf hw)]
  rw [bind_ok (run_openFile setFile_setStor_self)]
  have hh : (file.wrote w).hasWrote = true := rfl
  have hi : (file.wrote w).ino = file.ino := OpenFile.wrote_ino
  simp only [hh, if_true]
  rw [bind_ok (run_updateInodeSize (by rw [hi]; exact ha))]
  rfl

theorem writefile_error (hf : fs.openFiles h = some file)
    (hw : (SequenceWriter.write st.toUploadStor off data.length data).run (file.writer, fs.world.stor) = .error e (w, t)) :
    writefile st h off data fs = .error e ((fs.setFile h { file.beginWrite with writer := w }).setStor t) := by
  rw [writefile, bind_ok (run_openFile hf), bind_error (run_write_error hf hw)]

theorem releaseFile_ok (hf : fs.openFiles h = some file)
    (hw : (SequenceWriter.release st.toUploadStor).run (file.writer, fs.world.stor) = .ok () (w, t)) :
    releaseFile st h fs = .ok () ((fs.setFile h { file with writer := w, isWriting := false }).setStor t) := by
  have h₂ : runWriter h file (SequenceWriter.release st.toUploadStor) fs =
      .ok () ((fs.setFile h { file with writer := w }).setStor t) := by
    rw [run_runWriter, hw]
  rw [releaseFile, bind_ok (run_openFile hf), OpenFile.release, bind_ok h₂]
  rw [run_modifyFile setFile_setStor_self]
  simp

theorem releaseFile_error (hf : fs.openFiles h = some file)
    (hw : (SequenceWriter.release st.toUploadStor).run (file.writer, fs.world.stor) = .error e (w, t)) :
    releaseFile st h fs = .error e ((fs.setFile h { file with writer := w }).setStor t) := by
  have hwriter : runWriter h file (SequenceWriter.release st.toUploadStor) fs =
      .error e ((fs.setFile h { file with writer := w }).setStor t) := by
    rw [run_runWriter, hw]
  rw [releaseFile, bind_ok (run_openFile hf), OpenFile.release, bind_error hwriter]

/-- A handle that was just opened has a new writer. -/
theorem openfile_opened {fs' : CatFS σ} (hopen : openfile ino hasWrote fs = .ok h fs') :
    ∃ file, fs'.openFiles h = some file ∧ file.writer = .new file.rtfile.path := by
  rw [openfile] at hopen
  obtain ⟨r, fs₁, -, hopen⟩ := of_bind_ok hopen
  cases r with
  | none => cases hopen
  | some a =>
    obtain ⟨hno, fs₂, -, hopen⟩ := of_bind_ok hopen
    obtain ⟨path, fs₃, -, hopen⟩ := of_bind_ok hopen
    obtain ⟨d, fs₄, -, hopen⟩ := of_bind_ok hopen
    obtain ⟨_, fs₅, hset, hopen⟩ := of_bind_ok hopen
    cases hset
    cases hopen
    exact ⟨_, setFile_self, rfl⟩

/-- What a `writefile` that returned leaves of the file and in the store. -/
theorem writefile_wrote {fs' : CatFS σ} {n : Nat} (hf : fs.openFiles h = some file)
    (hw : (SequenceWriter.write st.toUploadStor off data.length data).run (file.writer, fs.world.stor) = .ok k (w, t))
    (hok : writefile st h off data fs = .ok n fs') : fs'.openFiles h = some (file.wrote w) ∧ fs'.world.stor = t := by
  cases ha : fs.world.cache.lookup file.ino with
  | some a =>
    rw [writefile_ok hf ha hw] at hok
    cases hok
    exact ⟨setFile_self, rfl⟩
  | none =>
    have hi : (file.wrote w).ino = file.ino := OpenFile.wrote_ino
    have hnone : ((fs.setFile h (file.wrote w)).setStor t).world.cache.lookup (file.wrote w).ino = none := by
      rw [hi]
      exact ha
    have hh : (file.wrote w).hasWrote = true := rfl
    rw [writefile, bind_ok (run_openFile hf), bind_ok (run_write_ok hf hw), bind_ok (run_openFile setFile_setStor_self)] at hok
    simp only [hh, if_true] at hok
    obtain ⟨_, fs₁, hupdate, -⟩ := of_bind_ok hok
    rw [run_updateInodeSize_none hnone] at hupdate
    cases hupdate

end CatFS

end Catfs
