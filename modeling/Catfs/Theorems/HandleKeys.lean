import Catfs.HandleTables
import Catfs.Theorems.DirHandles
import Catfs.Theorems.HandlesInv

/-! # The keys of the tables of handles

What one call does to the numbers that have an entry in `open_files` and in `open_dirs`, and to the next number to be
issued (`exec_step`). -/

namespace Catfs

open Lib
open EStateM (Result)

variable {σ α : Type} {st : Stor σ} {hno : HandleID}

/-! ### What the calls do to a table -/

namespace CatFS
variable {fs fs' : CatFS σ}

/-- The same numbers have an open file, and none was issued. -/
structure SameHandles (fs fs' : CatFS σ) : Prop where
  files : ∀ h, (fs'.openFiles h).isSome = (fs.openFiles h).isSome
  next : fs'.nextHandleId = fs.nextHandleId

instance : Std.Refl (@SameHandles σ) := ⟨fun _ => ⟨fun _ => rfl, rfl⟩⟩
instance : IsTrans (CatFS σ) SameHandles :=
  ⟨fun _ _ _ h h' => ⟨fun hno => (h'.files hno).trans (h.files hno), h'.next.trans h.next⟩⟩

/-- While `hno` has an open file, the same numbers have one. -/
abbrev KeepsFiles (hno : HandleID) (m : FsM σ α) : Prop :=
  Keeps (fun fs => (fs.openFiles hno).isSome = true) SameHandles (fun _ => True) m fun _ _ => True

theorem keepsFiles_of {m : FsM σ α} (h : ∀ fs : CatFS σ, (fs.openFiles hno).isSome = true → SameHandles fs (endState (m fs))) :
    KeepsFiles hno m := by
  intro fs hf _
  have hsame := h fs hf
  cases hr : m fs with
  | ok a fs' =>
    rw [hr] at hsame
    exact ⟨(hsame.files hno).trans hf, hsame, trivial⟩
  | error e fs' =>
    rw [hr] at hsame
    exact ⟨(hsame.files hno).trans hf, hsame⟩

theorem SameHandles.update {file : Option OpenFile} (hfiles : fs'.openFiles = Function.update fs.openFiles hno file)
    (hnext : fs'.nextHandleId = fs.nextHandleId) (hf : file.isSome = (fs.openFiles hno).isSome) : SameHandles fs fs' := by
  refine ⟨fun h => ?_, hnext⟩
  rw [hfiles]
  by_cases hh : h = hno
  · subst hh
    rw [Function.update_self, hf]
  · rw [Function.update_of_ne hh]

theorem endState_runMeta (p : MetaM σ α) : endState (runMeta p fs) = { fs with world := endState (p.run fs.world) } := by
  simp only [runMeta, zoom]
  cases p.run fs.world <;> rfl

theorem keepsFiles_runMeta (p : MetaM σ α) : KeepsFiles hno (runMeta p) := by
  refine keepsFiles_of fun fs _ => ?_
  rw [endState_runMeta]
  exact ⟨fun _ => rfl, rfl⟩

theorem keepsFiles_openFile : KeepsFiles hno (openFile hno : FsM σ _) := by
  refine keepsFiles_of fun fs hf => ?_
  obtain ⟨file, hfile⟩ := Option.isSome_iff_exists.1 hf
  rw [run_openFile hfile]
  exact refl_of SameHandles fs

theorem keepsFiles_modifyFile (f : OpenFile → OpenFile) : KeepsFiles hno (modifyFile hno f : FsM σ _) :=
  keepsFiles_of fun _ _ => .update rfl rfl Option.isSome_map

theorem keepsFiles_runWriter (file : OpenFile) (p : WriterM σ α) : KeepsFiles hno (runWriter hno file p) := by
  refine keepsFiles_of fun fs hf => ?_
  rw [run_runWriter]
  cases p.run (file.writer, fs.world.stor) <;> exact .update rfl rfl hf.symm

theorem keepsFiles_stor (m : EStateM Err σ α) :
    KeepsFiles hno (zoom (fun fs : CatFS σ => fs.world.stor) (fun t fs => fs.setStor t) m) := by
  refine keepsFiles_of fun fs _ => ?_
  simp only [zoom]
  cases m fs.world.stor <;> exact ⟨fun _ => rfl, rfl⟩

theorem keepsFiles_pure (a : α) : KeepsFiles hno (pure a : FsM σ α) := .pure fun _ _ _ => trivial

theorem KeepsFiles.next {β : Type} {m : FsM σ α} {f : α → FsM σ β} (hm : KeepsFiles hno m)
    (hf : ∀ a, KeepsFiles hno (f a)) : KeepsFiles hno (m >>= f) := hm.bind hf

theorem keepsFiles_readfile (off size : Nat) : KeepsFiles hno (readfile st hno off size) := by
  refine keepsFiles_openFile.next fun file => ?_
  unfold OpenFile.read
  exact .ite (fun _ => keepsFiles_pure _) fun _ => .ite (fun _ => keepsFiles_pure _) fun _ =>
    (keepsFiles_stor _).next fun _ => keepsFiles_pure _

theorem keepsFiles_writefile (off : Nat) (data : List Byte) : KeepsFiles hno (writefile st hno off data) := by
  refine keepsFiles_openFile.next fun _ => KeepsFiles.next ?_ fun _ => keepsFiles_openFile.next fun file => ?_
  · exact (keepsFiles_modifyFile _).next fun _ => keepsFiles_openFile.next fun file =>
      (keepsFiles_runWriter file _).next fun _ => keepsFiles_modifyFile _
  · exact .ite (fun _ => (keepsFiles_runMeta _).next fun _ => keepsFiles_pure _) fun _ => keepsFiles_pure _

theorem keepsFiles_releaseFile : KeepsFiles hno (releaseFile st hno) :=
  keepsFiles_openFile.next fun file => (keepsFiles_runWriter file _).next fun _ => keepsFiles_modifyFile _

/-- A call that looks `hno` up first throws when there is no open file. -/
theorem run_openFile_bind {f : OpenFile → FsM σ α} (hf : fs.openFiles hno = none) :
    (openFile hno >>= f) fs = .error (.int ENOENT) fs := bind_error (run_openFile_none hf)

/-- An `openfile` issues the next number and opens it, or throws and opens none. -/
theorem openfile_cases (ino : InodeID) (hasWrote : Bool) (fs : CatFS σ) :
    (∃ e fs', openfile ino hasWrote fs = .error e fs' ∧ fs'.openFiles = fs.openFiles ∧ fs.nextHandleId ≤ fs'.nextHandleId) ∨
      ∃ file fs', openfile ino hasWrote fs = .ok fs.nextHandleId fs' ∧
        fs'.openFiles = Function.update fs.openFiles fs.nextHandleId (some file) ∧ fs'.nextHandleId = fs.nextHandleId + 1 := by
  have hn : getNextHandleId fs = .ok fs.nextHandleId { fs with nextHandleId := fs.nextHandleId + 1 } := rfl
  rw [openfile, bind_ok run_metaGetDentry]
  cases fs.world.cache.lookup ino with
  | none => exact .inl ⟨_, fs, rfl, rfl, Nat.le_refl _⟩
  | some a =>
    dsimp only
    rw [bind_ok hn]
    have hworld : endState (runMeta (MetaImpl.fullPath a) { fs with nextHandleId := fs.nextHandleId + 1 }) = _ :=
      endState_runMeta (MetaImpl.fullPath a)
    cases hp : runMeta (MetaImpl.fullPath a) { fs with nextHandleId := fs.nextHandleId + 1 } with
    | error e fs₁ =>
      rw [hp] at hworld
      cases hworld
      rw [bind_error hp]
      exact .inl ⟨e, _, rfl, rfl, Nat.le_succ _⟩
    | ok path fs₁ =>
      rw [hp] at hworld
      cases hworld
      rw [bind_ok hp, bind_ok run_metaReadDentry]
      exact .inr ⟨_, _, rfl, rfl, rfl⟩

end CatFS

namespace FuseAdapter
variable {s : FuseAdapter σ} {fuel off size : Nat}

/-- An `opendir` issues the next number and opens it, or throws and opens none. -/
theorem opendir_cases (ino : InodeID) (s : FuseAdapter σ) :
    (∃ e, opendir ino s = .error e s) ∨
      ∃ dir, opendir ino s = .ok s.catfs.nextHandleId
        { s with catfs := { s.catfs with nextHandleId := s.catfs.nextHandleId + 1 },
                 openDirs := Function.update s.openDirs s.catfs.nextHandleId (some dir) } := by
  have hget : onCatfs (CatFS.runMeta (MetaImpl.getDentry ino)) s = .ok (s.catfs.world.cache.lookup ino) s := rfl
  rw [opendir, bind_ok hget]
  cases s.catfs.world.cache.lookup ino with
  | none => exact .inl ⟨_, rfl⟩
  | some a => exact .inr ⟨_, rfl⟩

theorem isSome_setDentries (h : HandleID) (dentries : List Dirent) :
    ((s.setDentries hno dentries).openDirs h).isSome = (s.openDirs h).isSome := by
  show ((Function.update s.openDirs hno _) h).isSome = _
  by_cases hh : h = hno
  · subst hh
    rw [Function.update_self, Option.isSome_map]
  · rw [Function.update_of_ne hh]

/-- A read of a directory changes the entries of an open one, and the state of the metadata layer. -/
structure SameDirs (s s' : FuseAdapter σ) : Prop where
  files : s'.catfs.openFiles = s.catfs.openFiles
  dirs : ∀ h, (s'.openDirs h).isSome = (s.openDirs h).isSome
  next : s'.catfs.nextHandleId = s.catfs.nextHandleId

theorem sameDirs_readDir : SameDirs s (endState (readDir st fuel hno off size s)) := by
  cases hdir : s.openDirs hno with
  | none =>
    rw [run_readDir_none hdir]
    exact ⟨rfl, fun _ => rfl, rfl⟩
  | some dir =>
    by_cases hnil : dir.dentries = []
    · cases ha : s.catfs.world.cache.lookup dir.ino with
      | none =>
        rw [run_readDir_unknown hdir hnil ha]
        exact ⟨rfl, fun _ => rfl, rfl⟩
      | some a =>
        cases hload : (MetaImpl.loadSubDentries st fuel dir.ino).run s.catfs.world with
        | ok dentries w =>
          rw [run_readDir_loads hdir hnil hload, endState_assign]
          exact ⟨rfl, fun h => isSome_setDentries h dentries, rfl⟩
        | error e w =>
          rw [run_readDir_fails hdir hnil ha hload]
          exact ⟨rfl, fun h => isSome_setDentries h (LocalMemMeta.dots a), rfl⟩
    · rw [run_readDir_listed hdir hnil, endState_assign]
      exact ⟨rfl, fun _ => rfl, rfl⟩

end FuseAdapter

/-! ### The keys -/

/-- The numbers with an open file or directory, those with a null entry, and the next number to be issued. -/
structure HandleKeys where
  files : HandleID → Bool
  dirs : HandleID → Bool
  nullFiles : HandleID → Bool
  nullDirs : HandleID → Bool
  next : HandleID

def HandleTables.keys (s : HandleTables σ) : HandleKeys :=
  { files := fun h => (s.openFiles h).isSome
    dirs := fun h => (s.openDirs h).isSome
    nullFiles := s.nullFiles
    nullDirs := s.nullDirs
    next := s.nextHandleId }

/-- What a call that returned the number `issued`, or none, does to the keys. -/
inductive HandleKeys.Step (k : HandleKeys) : HandleCall → Option HandleID → HandleKeys → Prop where
  | openfile (ino : InodeID) (hasWrote : Bool) : Step k (.openfile ino hasWrote) (some k.next)
      { k with files := Function.update k.files k.next true, nullFiles := Function.update k.nullFiles k.next false,
               next := k.next + 1 }
  | opendir (ino : InodeID) : Step k (.opendir ino) (some k.next)
      { k with dirs := Function.update k.dirs k.next true, nullDirs := Function.update k.nullDirs k.next false,
               next := k.next + 1 }
  | fails {c : HandleCall} (hfile : c.file = none) (hdir : c.dir = none) {n : HandleID} (hn : k.next ≤ n) :
      Step k c none { k with next := n }
  | useFile {c : HandleCall} {hno : HandleID} (hfile : c.file = some hno) :
      Step k c none { k with nullFiles := Function.update k.nullFiles hno (!k.files hno) }
  | readDir (hno : HandleID) (off size : Nat) :
      Step k (.readDir hno off size) none { k with nullDirs := Function.update k.nullDirs hno (!k.dirs hno) }
  | releaseDir (hno : HandleID) : Step k (.releaseDir hno) none
      { k with dirs := Function.update k.dirs hno false, nullDirs := Function.update k.nullDirs hno false }

/-- The number that a call returned. -/
def issued : Result Err (HandleTables σ) (Option HandleID) → Option HandleID
  | .ok hno _ => hno
  | .error _ _ => none

namespace HandleTables
variable {s : HandleTables σ} {fuel : Nat}

/-- After a lookup of `hno` in `open_files`, and a call that left `fs`. -/
def foundFile (s : HandleTables σ) (hno : HandleID) (fs : CatFS σ) : HandleTables σ :=
  { s with fuse := { s.fuse with catfs := fs }, nullFiles := Function.update s.nullFiles hno (!s.keys.files hno) }

/-- After a lookup of `hno` in `open_dirs`, and a call that left `fuse`. -/
def foundDir (s : HandleTables σ) (hno : HandleID) (fuse : FuseAdapter σ) : HandleTables σ :=
  { s with fuse, nullDirs := Function.update s.nullDirs hno (!s.keys.dirs hno) }

theorem run_findFile : findFile hno s = .ok () (s.foundFile hno s.fuse.catfs) := by
  have hnone : (s.openFiles hno).isNone = !s.keys.files hno := (Option.not_isSome _).symm
  show Result.ok () { s with nullFiles := Function.update s.nullFiles hno (s.openFiles hno).isNone } = _
  rw [hnone]
  rfl

theorem run_findDir : findDir hno s = .ok () (s.foundDir hno s.fuse) := by
  have hnone : (s.openDirs hno).isNone = !s.keys.dirs hno := (Option.not_isSome _).symm
  show Result.ok () { s with nullDirs := Function.update s.nullDirs hno (s.openDirs hno).isNone } = _
  rw [hnone]
  rfl

theorem run_useFile {m : FsM σ α} : useFile hno m s = match m s.fuse.catfs with
    | .ok _ fs => .ok none (s.foundFile hno fs)
    | .error e fs => .error e (s.foundFile hno fs) := by
  rw [useFile, bind_ok run_findFile]
  cases hr : m s.fuse.catfs with
  | ok a fs =>
    have hm : onFuse (FuseAdapter.onCatfs m) (s.foundFile hno s.fuse.catfs) = .ok a (s.foundFile hno fs) := zoom_ok (zoom_ok hr)
    rw [bind_ok hm]
    rfl
  | error e fs =>
    have hm : onFuse (FuseAdapter.onCatfs m) (s.foundFile hno s.fuse.catfs) = .error e (s.foundFile hno fs) :=
      zoom_error (zoom_error hr)
    rw [bind_error hm]

theorem run_useDir {m : FuseM σ α} : useDir hno m s = match m s.fuse with
    | .ok _ fuse => .ok none (s.foundDir hno fuse)
    | .error e fuse => .error e (s.foundDir hno fuse) := by
  rw [useDir, bind_ok run_findDir]
  cases hr : m s.fuse with
  | ok a fuse =>
    have hm : onFuse m (s.foundDir hno s.fuse) = .ok a (s.foundDir hno fuse) := zoom_ok hr
    rw [bind_ok hm]
    rfl
  | error e fuse =>
    have hm : onFuse m (s.foundDir hno s.fuse) = .error e (s.foundDir hno fuse) := zoom_error hr
    rw [bind_error hm]

/-- A call with a number of a file does no more to the keys than its lookup. -/
theorem step_useFile {c : HandleCall} {m : FsM σ α} (hc : c.file = some hno)
    (hsame : CatFS.SameHandles s.fuse.catfs (endState (m s.fuse.catfs))) :
    s.keys.Step c (issued (useFile hno m s)) (endState (useFile hno m s)).keys := by
  have hkeys : (s.foundFile hno (endState (m s.fuse.catfs))).keys =
      { s.keys with nullFiles := Function.update s.keys.nullFiles hno (!s.keys.files hno) } := by
    simp only [keys, foundFile, openFiles, openDirs, nextHandleId, hsame.files, hsame.next]
  have hrun : issued (useFile hno m s) = none ∧ endState (useFile hno m s) = s.foundFile hno (endState (m s.fuse.catfs)) := by
    rw [run_useFile]
    cases m s.fuse.catfs <;> exact ⟨rfl, rfl⟩
  rw [hrun.1, hrun.2, hkeys]
  exact .useFile hc

theorem step_readDir {off size : Nat} : s.keys.Step (.readDir hno off size)
    (issued ((HandleCall.readDir hno off size).exec st fuel s)) (endState ((HandleCall.readDir hno off size).exec st fuel s)).keys := by
  have hsame : FuseAdapter.SameDirs s.fuse (endState (FuseAdapter.readDir st fuel hno off size s.fuse)) :=
    FuseAdapter.sameDirs_readDir
  have hkeys : (s.foundDir hno (endState (FuseAdapter.readDir st fuel hno off size s.fuse))).keys =
      { s.keys with nullDirs := Function.update s.keys.nullDirs hno (!s.keys.dirs hno) } := by
    simp only [keys, foundDir, openFiles, openDirs, nextHandleId, hsame.files, hsame.dirs, hsame.next]
  have hrun : issued ((HandleCall.readDir hno off size).exec st fuel s) = none ∧
      endState ((HandleCall.readDir hno off size).exec st fuel s) =
        s.foundDir hno (endState (FuseAdapter.readDir st fuel hno off size s.fuse)) := by
    rw [HandleCall.exec, run_useDir]
    cases FuseAdapter.readDir st fuel hno off size s.fuse <;> exact ⟨rfl, rfl⟩
  rw [hrun.1, hrun.2, hkeys]
  exact .readDir hno off size

theorem isSome_update {β : Type} (f : HandleID → Option β) (h : HandleID) (r : Option β) :
    (fun hno => (Function.update f h r hno).isSome) = Function.update (fun hno => (f hno).isSome) h r.isSome := by
  funext hno
  by_cases hh : hno = h
  · subst hh
    rw [Function.update_self, Function.update_self]
  · rw [Function.update_of_ne hh, Function.update_of_ne hh]

theorem step_releaseDir : s.keys.Step (.releaseDir hno) (issued ((HandleCall.releaseDir hno).exec st fuel s))
    (endState ((HandleCall.releaseDir hno).exec st fuel s)).keys := by
  have hkeys : (endState ((HandleCall.releaseDir hno).exec st fuel s)).keys =
      { s.keys with dirs := Function.update s.keys.dirs hno false, nullDirs := Function.update s.keys.nullDirs hno false } := by
    show HandleKeys.mk _ (fun h => (Function.update s.openDirs hno none h).isSome) _ _ _ = _
    rw [isSome_update]
    rfl
  rw [hkeys]
  exact .releaseDir hno

theorem step_opendir {ino : InodeID} : s.keys.Step (.opendir ino) (issued ((HandleCall.opendir ino).exec st fuel s))
    (endState ((HandleCall.opendir ino).exec st fuel s)).keys := by
  obtain ⟨e, hrun⟩ | ⟨dir, hrun⟩ := FuseAdapter.opendir_cases ino s.fuse
  · have hm : onFuse (FuseAdapter.opendir ino) s = .error e s := zoom_error hrun
    rw [HandleCall.exec, bind_error hm]
    exact .fails rfl rfl (Nat.le_refl _)
  · have hm : onFuse (FuseAdapter.opendir ino) s = .ok s.nextHandleId { s with fuse := { s.fuse with
        catfs := { s.fuse.catfs with nextHandleId := s.nextHandleId + 1 },
        openDirs := Function.update s.openDirs s.nextHandleId (some dir) } } := zoom_ok hrun
    have hstep := HandleKeys.Step.opendir (k := s.keys) ino
    rw [HandleCall.exec, bind_ok hm]
    show s.keys.Step _ (some s.nextHandleId) { s.keys with
      dirs := fun h => (Function.update s.openDirs s.nextHandleId (some dir) h).isSome
      nullDirs := Function.update s.nullDirs s.nextHandleId false
      next := s.nextHandleId + 1 }
    rw [isSome_update]
    exact hstep

theorem step_openfile {ino : InodeID} {hasWrote : Bool} : s.keys.Step (.openfile ino hasWrote)
    (issued ((HandleCall.openfile ino hasWrote).exec st fuel s))
    (endState ((HandleCall.openfile ino hasWrote).exec st fuel s)).keys := by
  obtain ⟨e, fs, hrun, hfiles, hnext⟩ | ⟨file, fs, hrun, hfiles, hnext⟩ := CatFS.openfile_cases ino hasWrote s.fuse.catfs
  · have hm : onFuse (FuseAdapter.onCatfs (CatFS.openfile ino hasWrote)) s =
        .error e { s with fuse := { s.fuse with catfs := fs } } := zoom_error (zoom_error hrun)
    have hstep := HandleKeys.Step.fails (c := .openfile ino hasWrote) (k := s.keys) rfl rfl hnext
    rw [HandleCall.exec, bind_error hm]
    show s.keys.Step _ none { s.keys with files := fun h => (fs.openFiles h).isSome, next := fs.nextHandleId }
    rw [hfiles]
    exact hstep
  · have hm : onFuse (FuseAdapter.onCatfs (CatFS.openfile ino hasWrote)) s =
        .ok s.nextHandleId { s with fuse := { s.fuse with catfs := fs } } := zoom_ok (zoom_ok hrun)
    have hstep := HandleKeys.Step.openfile (k := s.keys) ino hasWrote
    rw [HandleCall.exec, bind_ok hm]
    show s.keys.Step _ (some s.nextHandleId) { s.keys with
      files := fun h => (fs.openFiles h).isSome
      nullFiles := Function.update s.nullFiles s.nextHandleId false
      next := fs.nextHandleId }
    rw [hfiles, hnext, isSome_update]
    exact hstep

/-- A call with a number that has no open file throws before it does anything. -/
theorem step_file {c : HandleCall} {m : FsM σ α} (hc : c.file = some hno) (hkeep : CatFS.KeepsFiles hno m)
    (hnone : ∀ fs : CatFS σ, fs.openFiles hno = none → m fs = .error (.int ENOENT) fs) :
    s.keys.Step c (issued (useFile hno m s)) (endState (useFile hno m s)).keys := by
  refine step_useFile hc ?_
  cases hf : s.fuse.catfs.openFiles hno with
  | none =>
    rw [hnone _ hf]
    exact refl_of CatFS.SameHandles s.fuse.catfs
  | some file =>
    have hsome : (s.fuse.catfs.openFiles hno).isSome = true := by rw [hf]; rfl
    exact (hkeep.endState hsome trivial).2

theorem exec_step (c : HandleCall) : s.keys.Step c (issued (c.exec st fuel s)) (endState (c.exec st fuel s)).keys := by
  cases c with
  | openfile ino hasWrote => exact step_openfile
  | opendir ino => exact step_opendir
  | readfile hno off size =>
    exact step_file rfl (CatFS.keepsFiles_readfile off size) fun fs hf => CatFS.run_openFile_bind hf
  | writefile hno off data =>
    exact step_file rfl (CatFS.keepsFiles_writefile off data) fun fs hf => CatFS.run_openFile_bind hf
  | readDir hno off size => exact step_readDir
  | releaseFile hno => exact step_file rfl CatFS.keepsFiles_releaseFile fun fs hf => CatFS.run_openFile_bind hf
  | releaseDir hno => exact step_releaseDir

end HandleTables

end Catfs
