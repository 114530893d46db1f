import Catfs.MetaImpl
import Catfs.Writer

/-! # Open files (`src/fs`)

`CatFS` keeps a table of open files, each with its writer. A request runs its parts one after the other, so
it is a computation over the whole state. -/

namespace Catfs

open Lib

/-- The writer and the reader share the file; the reader has no state of its own. -/
structure OpenFile where
  ino : InodeID
  hno : HandleID
  rtfile : RTFile
  writer : SequenceWriter
  isWriting : Bool
  firstWrite : Bool
  hasWrote : Bool

/-- A handle that was never opened is a null pointer in `open_files`. -/
structure CatFS (σ : Type) where
  world : World σ
  openFiles : HandleID → Option OpenFile
  nextHandleId : HandleID

abbrev FsM (σ : Type) := EStateM Err (CatFS σ)

section
variable {σ α : Type}

namespace CatFS

def setFile (fs : CatFS σ) (hno : HandleID) (file : OpenFile) : CatFS σ :=
  { fs with openFiles := Function.update fs.openFiles hno (some file) }

/-- A change to the open file that `hno` points to. -/
def modifyFile (hno : HandleID) (f : OpenFile → OpenFile) : FsM σ Unit :=
  modify fun fs => { fs with openFiles := Function.update fs.openFiles hno ((fs.openFiles hno).map f) }

def setStor (fs : CatFS σ) (t : σ) : CatFS σ := { fs with world := { fs.world with stor := t } }

/-- A call of the metadata layer. -/
def runMeta (p : MetaM σ α) : FsM σ α := zoom CatFS.world (fun w fs => { fs with world := w }) p.run

/-- A call of the writer of `file`, open under `hno`. -/
def runWriter (hno : HandleID) (file : OpenFile) (p : WriterM σ α) : FsM σ α :=
  zoom (fun fs => (file.writer, fs.world.stor))
    (fun s fs => (fs.setFile hno { file with writer := s.1 }).setStor s.2) p.run

def getNextHandleId : FsM σ HandleID := do
  let hno := (← get).nextHandleId
  modify fun fs => { fs with nextHandleId := fs.nextHandleId + 1 }
  pure hno

/-- `open_files[hno]`, with the check that every request makes. -/
def openFile (hno : HandleID) : FsM σ OpenFile := do
  match (← get).openFiles hno with
  | some file => pure file
  | none => throw (.int ENOENT)

end CatFS

open CatFS

/-- `OpenFile(ino, hno, file)`, whose `has_wrote` is whatever the memory held. -/
def OpenFile.new (ino : InodeID) (hno : HandleID) (file : RTFile) (hasWrote : Bool) : OpenFile :=
  { ino, hno, rtfile := file, writer := .new file.path, isWriting := false, firstWrite := false, hasWrote }

/-- `OpenFile::read`: the bytes read. -/
def OpenFile.read (st : Stor σ) (file : OpenFile) (off size : Nat) : FsM σ (List Byte) := do
  let size := if file.rtfile.size < u64 (off + size) then u64 (file.rtfile.size - off) else size
  if file.rtfile.size ≤ off then pure []
  else if size = 0 then pure []
  else do
    let resp ← zoom (fun fs : CatFS σ => fs.world.stor) (fun t fs => fs.setStor t)
      (st.readFile { objKey := file.rtfile.path, off, size })
    pure (resp.dst.take resp.bytes)

def OpenFile.write (st : Stor σ) (hno : HandleID) (off size : Nat) (data : List Byte) : FsM σ Unit := do
  modifyFile hno fun file => if file.firstWrite then file else { file with firstWrite := true, isWriting := true }
  let file ← openFile hno
  let _ ← runWriter hno file (SequenceWriter.write st.toUploadStor off size data)
  modifyFile hno fun file =>
    { file with hasWrote := true, rtfile := { file.rtfile with size := file.writer.fileSize } }

def OpenFile.release (st : Stor σ) (hno : HandleID) (file : OpenFile) : FsM σ Unit := do
  runWriter hno file (SequenceWriter.release st.toUploadStor)
  modifyFile hno fun file => { file with isWriting := false }

namespace CatFS

/-- `hasWrote` is what the memory of the new file holds. -/
def openfile (ino : InodeID) (hasWrote : Bool) : FsM σ HandleID := do
  match ← runMeta (MetaImpl.getDentry ino) with
  | none => throw .enoent
  | some a =>
    let hno ← getNextHandleId
    let path ← runMeta (MetaImpl.fullPath a)
    let d ← runMeta (MetaM.readDentry a)
    modify (·.setFile hno (.new d.inode.ino hno { path, size := d.inode.size } hasWrote))
    pure hno

def readfile (st : Stor σ) (hno : HandleID) (off size : Nat) : FsM σ (List Byte) := do
  let file ← openFile hno
  file.read st off size

def writefile (st : Stor σ) (hno : HandleID) (off : Nat) (data : List Byte) : FsM σ Nat := do
  let _ ← openFile hno
  OpenFile.write st hno off data.length data
  let file ← openFile hno
  if file.hasWrote then do
    runMeta (MetaImpl.updateInodeSize file.ino file.rtfile.size)
    pure data.length
  else pure data.length

def releaseFile (st : Stor σ) (hno : HandleID) : FsM σ Unit := do
  let file ← openFile hno
  file.release st hno

end CatFS

end

end Catfs
