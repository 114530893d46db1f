import Catfs.Fsa

/-! # The tables of handles (`src/fs/fs_file.cpp`, `src/fs/fs_dir.cpp`)

`open_files` and `open_dirs` are read with `operator[]`, which gives a number without an entry one that is a null
pointer. The calls on handles are repeated here with the null entries that they leave. -/

namespace Catfs

open Lib

/-- `catfs`, and the numbers whose entry in `open_files` or in `open_dirs` is a null pointer. -/
structure HandleTables (σ : Type) where
  fuse : FuseAdapter σ
  nullFiles : HandleID → Bool
  nullDirs : HandleID → Bool

abbrev HandleM (σ : Type) := EStateM Err (HandleTables σ)

/-- The calls that make, use or give back a handle. -/
inductive HandleCall where
  | openfile (ino : InodeID) (hasWrote : Bool)
  | opendir (ino : InodeID)
  | readfile (hno : HandleID) (off size : Nat)
  | writefile (hno : HandleID) (off : Nat) (data : List Byte)
  | readDir (hno : HandleID) (off size : Nat)
  | releaseFile (hno : HandleID)
  | releaseDir (hno : HandleID)
  deriving DecidableEq, Repr

section
variable {σ α : Type}

namespace HandleTables

/-- A mount with nothing open; no handle was issued yet. -/
def start (world : World σ) : HandleTables σ :=
  { fuse := { catfs := { world, openFiles := fun _ => none, nextHandleId := 0 }, openDirs := fun _ => none, replies := [] }
    nullFiles := fun _ => false
    nullDirs := fun _ => false }

def openFiles (s : HandleTables σ) : HandleID → Option OpenFile := s.fuse.catfs.openFiles
def openDirs (s : HandleTables σ) : HandleID → Option OpenDir := s.fuse.openDirs
def nextHandleId (s : HandleTables σ) : HandleID := s.fuse.catfs.nextHandleId

/-- `open_files` has an entry for `hno`. -/
def HasFile (s : HandleTables σ) (hno : HandleID) : Prop := (s.openFiles hno).isSome ∨ s.nullFiles hno

/-- `open_dirs` has an entry for `hno`. -/
def HasDir (s : HandleTables σ) (hno : HandleID) : Prop := (s.openDirs hno).isSome ∨ s.nullDirs hno

/-- No entry of either table differs. -/
structure SameTables (s s' : HandleTables σ) : Prop where
  openFiles : s'.openFiles = s.openFiles
  openDirs : s'.openDirs = s.openDirs
  nullFiles : s'.nullFiles = s.nullFiles
  nullDirs : s'.nullDirs = s.nullDirs

def setWorld (s : HandleTables σ) (world : World σ) : HandleTables σ :=
  { s with fuse := { s.fuse with catfs := { s.fuse.catfs with world } } }

def onFuse (m : FuseM σ α) : HandleM σ α := zoom HandleTables.fuse (fun fuse s => { s with fuse }) m

/-- The lookup `open_files[hno]` -/
def findFile (hno : HandleID) : HandleM σ Unit :=
  modify fun s => { s with nullFiles := Function.update s.nullFiles hno (s.openFiles hno).isNone }

/-- The lookup `open_dirs[hno]` -/
def findDir (hno : HandleID) : HandleM σ Unit :=
  modify fun s => { s with nullDirs := Function.update s.nullDirs hno (s.openDirs hno).isNone }

/-- What an assignment to `open_files[hno]` leaves is no null pointer. -/
def setFileEntry (hno : HandleID) : HandleM σ Unit :=
  modify fun s => { s with nullFiles := Function.update s.nullFiles hno false }

/-- What an assignment to `open_dirs[hno]` or an `erase` leaves is no null pointer. -/
def setDirEntry (hno : HandleID) : HandleM σ Unit :=
  modify fun s => { s with nullDirs := Function.update s.nullDirs hno false }

/-- A call that begins with a lookup of `hno` in `open_files`. -/
def useFile (hno : HandleID) (m : FsM σ α) : HandleM σ (Option HandleID) := do
  findFile hno
  let _ ← onFuse (FuseAdapter.onCatfs m)
  pure none

/-- A call that begins with a lookup of `hno` in `open_dirs`. -/
def useDir (hno : HandleID) (m : FuseM σ α) : HandleM σ (Option HandleID) := do
  findDir hno
  let _ ← onFuse m
  pure none

end HandleTables

open HandleTables in
/-- The call, which returns the number of the handle it made, with at most `fuel` pages for a listing. -/
def HandleCall.exec (st : Stor σ) (fuel : Nat) : HandleCall → HandleM σ (Option HandleID)
  | .openfile ino hasWrote => do
    let hno ← onFuse (FuseAdapter.onCatfs (CatFS.openfile ino hasWrote))
    setFileEntry hno
    pure (some hno)
  | .opendir ino => do
    let hno ← onFuse (FuseAdapter.opendir ino)
    setDirEntry hno
    pure (some hno)
  | .readfile hno off size => useFile hno (CatFS.readfile st hno off size)
  | .writefile hno off data => useFile hno (CatFS.writefile st hno off data)
  | .readDir hno off size => useDir hno (FuseAdapter.readDir st fuel hno off size)
  | .releaseFile hno => useFile hno (CatFS.releaseFile st hno)
  | .releaseDir hno => do
    onFuse (FuseAdapter.releaseDir hno)
    setDirEntry hno
    pure none

/-- The number a call gives for a file. -/
def HandleCall.file : HandleCall → Option HandleID
  | .readfile hno _ _ | .writefile hno _ _ | .releaseFile hno => some hno
  | .openfile _ _ | .opendir _ | .readDir _ _ _ | .releaseDir _ => none

/-- The number a call gives for a directory. -/
def HandleCall.dir : HandleCall → Option HandleID
  | .readDir hno _ _ | .releaseDir hno => some hno
  | .openfile _ _ | .opendir _ | .readfile _ _ _ | .writefile _ _ _ | .releaseFile _ => none

end

end Catfs
