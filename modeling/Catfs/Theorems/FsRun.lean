import Catfs.Lib.Behaves
import Catfs.Theorems.Effects
import Catfs.Theorems.HandleRun

/-! # Runs of a mount

The requests of the metadata layer and those of the open files, one after the other. Each of them keeps the shape of
the cache and an index entry for the inode of every handle. -/

namespace Catfs

open Lib CatFS MetaImpl
open EStateM (Result)

/-- The requests on names, with at most `fuel` pages for a listing, and on handles. -/
inductive FsReq where
  | request (fuel : Nat) (r : Request)
  | openfile (ino : InodeID) (hasWrote : Bool)
  | readfile (hno : HandleID) (off size : Nat)
  | writefile (hno : HandleID) (off : Nat) (data : List Byte)
  | releaseFile (hno : HandleID)
  deriving DecidableEq, Repr

section
variable {σ α : Type}

/-- The request, its answer dropped. -/
def FsReq.exec (opt : MetaOpt) (st : Stor σ) : FsReq → FsM σ Unit
  | .request fuel r => runMeta (r.prog opt st fuel)
  | .openfile ino hasWrote => do let _ ← CatFS.openfile ino hasWrote
  | .readfile hno off size => do let _ ← CatFS.readfile st hno off size
  | .writefile hno off data => do let _ ← CatFS.writefile st hno off data
  | .releaseFile hno => CatFS.releaseFile st hno

/-- A new mount: no file was opened. -/
def CatFS.start (opt : MetaOpt) (start : Timespec) (t : σ) (now : Timespec) (garbage : Garbage) : CatFS σ :=
  { world := ⟨.new opt start, t, now, garbage⟩, openFiles := fun _ => none, nextHandleId := 0 }

/-- The inode of every handle is in the index, and its writer has `W`. -/
structure Indexed (W : SequenceWriter → Prop) (fs : CatFS σ) : Prop where
  inv : fs.world.cache.Inv
  file : ∀ hno file, fs.openFiles hno = some file → ∃ a, fs.world.cache.lookup file.ino = some a
  writer : ∀ hno file, fs.openFiles hno = some file → W file.writer

def Grows (fs fs' : CatFS σ) : Prop := fs.world.cache.Grow fs'.world.cache

instance : Std.Refl (@Grows σ) := ⟨fun fs => .refl fs.world.cache⟩
instance : IsTrans (CatFS σ) Grows := ⟨fun _ _ _ => LocalMemMeta.Grow.trans⟩

/-- The inode `ino` is in the index. -/
abbrev Known (ino : InodeID) (fs : CatFS σ) : Prop := ∃ a, fs.world.cache.lookup ino = some a

abbrev Sound (W : SequenceWriter → Prop) (P : CatFS σ → Prop) (f : FsM σ α) (Q : α → CatFS σ → Prop) : Prop :=
  Keeps (Indexed W) Grows P f Q

/-- The writer has `W` after the call when it had it before. -/
abbrev Maintains (W : SequenceWriter → Prop) (p : WriterM σ α) : Prop :=
  Behaves (fun s => W s.1) p.run (fun _ s => W s.1) fun _ s => W s.1

/-- A writer keeps `W` whatever it does over `st`, and has it from the start. -/
structure WriterKeeps (W : SequenceWriter → Prop) (st : Stor σ) : Prop where
  new : ∀ path, W (.new path)
  write : ∀ off size data, Maintains W (SequenceWriter.write st.toUploadStor off size data)
  release : Maintains W (SequenceWriter.release st.toUploadStor)

variable {W : SequenceWriter → Prop} {P : CatFS σ → Prop} {Q : α → CatFS σ → Prop} {opt : MetaOpt} {st : Stor σ}
  {hno : HandleID} {file : OpenFile}

/-! ### The parts of a request -/

theorem sound_runMeta {p : MetaM σ α} (hp : Tame p) : Sound W (fun _ => True) (runMeta p) fun _ _ => True := by
  intro fs hfs _
  obtain ⟨hinv, hgrow⟩ := hp.run (s := fs.world) hfs.inv
  have hindexed : ∀ w : World σ, w.cache.Inv → fs.world.cache.Grow w.cache → Indexed W { fs with world := w } :=
    fun w hi hg => ⟨hi, fun h f hf => (hfs.file h f hf).imp fun a ha => hg.index _ a ha, hfs.writer⟩
  rw [runMeta, zoom]
  cases hr : p.run fs.world with
  | ok x w =>
    rw [hr] at hinv hgrow
    exact ⟨hindexed w hinv hgrow, hgrow, trivial⟩
  | error e w =>
    rw [hr] at hinv hgrow
    exact ⟨hindexed w hinv hgrow, hgrow⟩

theorem sound_openFile :
    Sound W (fun _ => True) (openFile hno : FsM σ _) fun file fs => Known file.ino fs ∧ W file.writer := by
  intro fs hfs _
  cases hf : fs.openFiles hno with
  | none =>
    rw [run_openFile_none hf]
    exact ⟨hfs, refl_of Grows fs⟩
  | some file =>
    rw [run_openFile hf]
    exact ⟨hfs, refl_of Grows fs, hfs.file hno file hf, hfs.writer hno file hf⟩

/-- The entry of `hno` changes. -/
theorem Indexed.update {fs fs' : CatFS σ} {r : Option OpenFile} (h : Indexed W fs) (hw : fs'.world.cache = fs.world.cache)
    (hfiles : fs'.openFiles = Function.update fs.openFiles hno r)
    (hr : ∀ file, r = some file → Known file.ino fs ∧ W file.writer) : Indexed W fs' := by
  have hcases : ∀ h' f', fs'.openFiles h' = some f' → Known f'.ino fs ∧ W f'.writer := by
    intro h' f' hf'
    rw [hfiles] at hf'
    by_cases hh : h' = hno
    · subst hh
      rw [Function.update_self] at hf'
      exact hr f' hf'
    · rw [Function.update_of_ne hh] at hf'
      exact ⟨h.file h' f' hf', h.writer h' f' hf'⟩
  refine ⟨hw ▸ h.inv, fun h' f' hf' => ?_, fun h' f' hf' => (hcases h' f' hf').2⟩
  rw [hw]
  exact (hcases h' f' hf').1

theorem sound_modifyFile {f : OpenFile → OpenFile} (hi : ∀ file, (f file).ino = file.ino)
    (hw : ∀ file, (f file).writer = file.writer) :
    Sound W (fun _ => True) (modifyFile hno f : FsM σ _) fun _ _ => True := by
  intro fs hfs _
  refine ⟨hfs.update rfl rfl fun f' hf' => ?_, .refl _, trivial⟩
  obtain ⟨file, hf, rfl⟩ := Option.map_eq_some_iff.mp hf'
  rw [hi, hw]
  exact ⟨hfs.file hno file hf, hfs.writer hno file hf⟩

theorem sound_runWriter {p : WriterM σ α} (hp : Maintains W p) :
    Sound W (fun fs => Known file.ino fs ∧ W file.writer) (runWriter hno file p) fun _ _ => True := by
  intro fs hfs hk
  have hend := hp (file.writer, fs.world.stor) hk.2
  rw [run_runWriter]
  cases hr : p.run (file.writer, fs.world.stor) with
  | ok x s =>
    rw [hr] at hend
    exact ⟨hfs.update rfl rfl fun f hf => by cases hf; exact ⟨hk.1, hend⟩, .refl _, trivial⟩
  | error e s =>
    rw [hr] at hend
    exact ⟨hfs.update rfl rfl fun f hf => by cases hf; exact ⟨hk.1, hend⟩, .refl _⟩

/-! ### The requests -/

section
variable (hst : WriterKeeps W st)
include hst

theorem sound_openfile {ino : InodeID} {hasWrote : Bool} :
    Sound W (fun _ => True) (openfile ino hasWrote : FsM σ _) fun _ _ => True := by
  intro fs hfs _
  cases ha : fs.world.cache.lookup ino with
  | none =>
    rw [run_openfile_none ha]
    exact ⟨hfs, refl_of Grows fs⟩
  | some a =>
    obtain ⟨hlt, hino⟩ := hfs.inv.indexed _ _ ha
    obtain ⟨path, hpath⟩ := LocalMemMeta.fullPath_some hfs.inv hlt
    rw [run_openfile ha hpath]
    rw [hino]
    exact ⟨hfs.update rfl rfl fun f hf => by cases hf; exact ⟨⟨a, ha⟩, hst.new path⟩, .refl _, trivial⟩

omit hst in
theorem sound_readfile {off size : Nat} : Sound W (fun _ => True) (readfile st hno off size) fun _ _ => True := by
  have hpure : ∀ data : List Byte, Sound W (fun _ => True) (pure data : FsM σ _) fun _ _ => True :=
    fun _ => Keeps.pure fun _ _ _ => trivial
  refine (sound_openFile.mono (fun _ _ => trivial) fun _ _ _ => trivial).bind fun file => .ite (fun _ => hpure _) fun _ =>
    .ite (fun _ => hpure _) fun _ => Keeps.bind (Q := fun _ _ => True) ?_ fun _ => hpure _
  intro fs hfs _
  rw [zoom]
  cases st.readFile _ fs.world.stor with
  | ok x t => exact ⟨⟨hfs.inv, hfs.file, hfs.writer⟩, .refl _, trivial⟩
  | error e t => exact ⟨⟨hfs.inv, hfs.file, hfs.writer⟩, .refl _⟩

theorem sound_write {off size : Nat} {data : List Byte} :
    Sound W (fun _ => True) (OpenFile.write st hno off size data) fun _ _ => True := by
  refine (sound_modifyFile (fun _ => OpenFile.beginWrite_ino) fun _ => OpenFile.beginWrite_writer).bind fun _ =>
    sound_openFile.bind fun file => (sound_runWriter (hst.write _ _ _)).bind fun _ =>
    sound_modifyFile (fun _ => rfl) fun _ => rfl

theorem sound_writefile {off : Nat} {data : List Byte} :
    Sound W (fun _ => True) (writefile st hno off data) fun _ _ => True := by
  refine (sound_openFile.mono (fun _ _ => trivial) fun _ _ _ => trivial).bind fun _ => (sound_write hst).bind fun _ =>
    (sound_openFile.mono (fun _ _ => trivial) fun _ _ _ => trivial).bind fun file => .ite (fun _ => ?_) fun _ => ?_
  · exact (sound_runMeta tame_updateInode).bind fun _ => Keeps.pure fun _ _ _ => trivial
  · exact Keeps.pure fun _ _ _ => trivial

theorem sound_releaseFile : Sound W (fun _ => True) (releaseFile st hno) fun _ _ => True :=
  sound_openFile.bind fun _ => (sound_runWriter hst.release).bind fun _ => sound_modifyFile (fun _ => rfl) fun _ => rfl

/-- Every request keeps the shape of the cache and the index entries of the handles. -/
theorem sound_request (r : FsReq) : Sound W (fun _ => True) (r.exec opt st) fun _ _ => True := by
  cases r with
  | request fuel r => exact sound_runMeta (tame_request r)
  | openfile ino hasWrote => exact (sound_openfile hst).bind fun _ => Keeps.pure fun _ _ _ => trivial
  | readfile hno off size => exact sound_readfile.bind fun _ => Keeps.pure fun _ _ _ => trivial
  | writefile hno off data => exact (sound_writefile hst).bind fun _ => Keeps.pure fun _ _ _ => trivial
  | releaseFile hno => exact sound_releaseFile hst

end

/-- Any writer keeps what says nothing of it. -/
theorem writes_true : WriterKeeps (fun _ => True) st where
  new _ := trivial
  write _ _ _ _ _ := by split <;> trivial
  release _ _ := by split <;> trivial

end

end Catfs
