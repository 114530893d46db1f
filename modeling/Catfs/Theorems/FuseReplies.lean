import Catfs.Theorems.LogClient
import Catfs.Theorems.WriteErrors

/-! # One reply for each request

The `catch` clauses of a handler take every class derived from `std::exception` and nothing else. So a handler makes
its one reply unless a value of another type is thrown, or a null pointer or an iterator past the end is used. -/

namespace Catfs

open Lib CatFS MetaImpl SequenceWriter
open EStateM (Result)

namespace FuseAdapter
variable {σ α : Type} {opt : MetaOpt} {st : Stor σ} {size : DirentSize} {fuel : Nat} {s s' : FuseAdapter σ} {hno : HandleID}

section
variable {clauses : Err → Option Nat} {body : FuseM σ Unit} {e : Err} {code : Nat}

theorem catching_ok (h : body s = .ok () s') : catching clauses body s = .ok () s' := by
  rw [catching, h]

theorem catching_some (h : body s = .error e s') (hc : clauses e = some code) :
    catching clauses body s = .ok () { s' with replies := s'.replies ++ [.err code] } := by
  simp only [catching, h, hc]
  rfl

theorem catching_none (h : body s = .error e s') (hc : clauses e = none) : catching clauses body s = .error e s' := by
  simp only [catching, h, hc]

end

/-! ### The invariant -/

/-- The shape of the cache, the index entries of the handles and the sizes of their parts. -/
def Ready (s : FuseAdapter σ) : Prop := Indexed PartsSized s.catfs

abbrev KeepsReady (m : FuseM σ α) : Prop := Behaves Ready m (fun _ => Ready) fun _ => Ready

theorem ready_onCatfs {f : FsM σ α} {Q : α → CatFS σ → Prop} (h : Sound PartsSized (fun _ => True) f Q) :
    KeepsReady (onCatfs f) := by
  intro s hs
  have hf := h s.catfs hs trivial
  rw [onCatfs, zoom]
  cases hr : f s.catfs with
  | ok a fs =>
    rw [hr] at hf
    exact hf.1
  | error e fs =>
    rw [hr] at hf
    exact hf.1

theorem ready_runMeta {p : MetaM σ α} (h : Tame p) : KeepsReady (onCatfs (runMeta p)) := ready_onCatfs (sound_runMeta h)

theorem ready_pure {a : α} : KeepsReady (pure a : FuseM σ α) := .pure fun _ hs => hs

theorem ready_throw {e : Err} : KeepsReady (throw e : FuseM σ α) := .throw fun _ hs => hs

theorem ready_get : KeepsReady (get : FuseM σ _) := fun _ hs => hs

theorem ready_modify {f : FuseAdapter σ → FuseAdapter σ} (h : ∀ s, (f s).catfs = s.catfs) : KeepsReady (modify f) := by
  intro s hs
  have hready : Ready (f s) := by rwa [Ready, h]
  exact hready

theorem ready_reply {r : FuseReply} : KeepsReady (reply r : FuseM σ _) := ready_modify fun _ => rfl

theorem ready_inodeOf {a : Addr} : KeepsReady (inodeOf a : FuseM σ _) := ready_get.bind fun _ => ready_pure

theorem ready_catching {clauses : Err → Option Nat} {body : FuseM σ Unit} (h : KeepsReady body) :
    KeepsReady (catching clauses body) := by
  intro s hs
  cases hr : body s with
  | ok a s' =>
    rw [catching_ok hr]
    exact h.ok hs hr
  | error e s' =>
    have hs' : Ready s' := h.error hs hr
    cases hc : clauses e with
    | none =>
      rw [catching_none hr hc]
      exact hs'
    | some code =>
      rw [catching_some hr hc]
      exact hs'

theorem sound_getNextHandleId : Sound PartsSized (fun _ => True) (getNextHandleId : FsM σ _) fun _ _ => True := by
  intro fs hfs _
  exact ⟨⟨hfs.inv, hfs.file, hfs.writer⟩, .refl _, trivial⟩

theorem ready_opendir {ino : InodeID} : KeepsReady (opendir ino : FuseM σ _) := by
  refine (ready_runMeta tame_getDentry).bind fun r => ?_
  cases r with
  | none => exact ready_throw
  | some a => exact (ready_onCatfs sound_getNextHandleId).bind fun _ => ready_inodeOf.bind fun _ =>
      Behaves.bind (ready_modify fun _ => rfl) fun _ => ready_pure

theorem ready_loadDentries {dir : OpenDir} : KeepsReady (loadDentries st fuel hno dir) := by
  intro s hs
  have hkeep : KeepsReady (onCatfs (runMeta (loadSubDentries st fuel dir.ino))) := ready_runMeta tame_loadSubDentries
  have hload := hkeep s hs
  rw [loadDentries]
  cases hr : onCatfs (runMeta (loadSubDentries st fuel dir.ino)) s with
  | ok dentries s' =>
    rw [hr] at hload
    exact hload
  | error e s' =>
    rw [hr] at hload
    dsimp only
    cases s.catfs.world.cache.lookup dir.ino <;> exact hload

theorem ready_readDir {off limit : Nat} : KeepsReady (readDir st fuel hno off limit) := by
  refine ready_get.bind fun s => ?_
  cases s.openDirs hno with
  | none => exact ready_throw
  | some dir =>
    have hassign : ∀ dentries, KeepsReady (assign dentries off limit : FuseM σ _) := by
      intro dentries
      rw [assign]
      cases slice dentries off limit with
      | none => exact ready_throw
      | some ret => exact ready_pure
    exact .ite (fun _ => ready_loadDentries.bind hassign) fun _ => hassign _

theorem ready_writeBufs (h8 : st.EightMiB) (bufs : List (List Byte)) (off res : Nat) :
    KeepsReady (writeBufs st hno bufs off res) := by
  induction bufs generalizing off res with
  | nil => exact ready_pure
  | cons buf bufs ih => exact (ready_onCatfs (sound_writefile (writes_sized h8))).bind fun _ => ih _ _

/-- Every handler keeps the invariant, also where it does not answer. -/
theorem ready_handler (h8 : st.EightMiB) (r : FuseReq) : KeepsReady (r.handler opt st size fuel) := by
  have hopen : ∀ ino hasWrote, KeepsReady (onCatfs (openfile ino hasWrote) : FuseM σ _) :=
    fun _ _ => ready_onCatfs (sound_openfile (writes_sized h8))
  cases r with
  | lookup parent name =>
    refine ready_catching ((ready_runMeta tame_findDentry).bind fun r => ?_)
    cases r with
    | none => exact ready_reply
    | some a => exact ready_inodeOf.bind fun _ => ready_reply
  | getattr ino =>
    refine ready_catching (Behaves.bind (Q := fun _ => Ready) ((ready_runMeta tame_getDentry).bind fun r => ?_) fun r => ?_)
    · cases r with
      | none => exact ready_pure
      | some a => exact ready_inodeOf.bind fun _ => ready_pure
    · cases r <;> exact ready_reply
  | mkdir parent name mode =>
    exact ready_catching ((ready_runMeta tame_createDentry).bind fun _ => ready_inodeOf.bind fun _ => ready_reply)
  | unlink parent name => exact ready_catching ((ready_runMeta tame_removeDentry).bind fun _ => ready_reply)
  | rmdir parent name => exact ready_catching ((ready_runMeta tame_removeDentry).bind fun _ => ready_reply)
  | openfile ino hasWrote => exact ready_catching ((hopen _ _).bind fun _ => ready_reply)
  | create parent name mode hasWrote =>
    exact ready_catching ((ready_runMeta tame_createDentry).bind fun _ => ready_inodeOf.bind fun _ =>
      (hopen _ _).bind fun _ => ready_inodeOf.bind fun _ => ready_reply)
  | read hno off limit => exact ready_catching ((ready_onCatfs sound_readfile).bind fun _ => ready_reply)
  | write hno off data =>
    exact ready_catching ((ready_onCatfs (sound_writefile (writes_sized h8))).bind fun _ => ready_reply)
  | writeBuf hno off buf => exact ready_catching ((ready_writeBufs h8 _ _ _).bind fun _ => ready_reply)
  | release hno =>
    exact ready_catching ((ready_onCatfs (sound_releaseFile (writes_sized h8))).bind fun _ => ready_reply)
  | opendir ino => exact ready_catching (ready_opendir.bind fun _ => ready_reply)
  | readdir hno limit off =>
    exact ready_catching (ready_readDir.bind fun _ => ready_get.bind fun _ => ready_reply)
  | readdirplus hno limit off =>
    exact ready_catching (ready_readDir.bind fun _ => ready_get.bind fun _ => ready_reply)
  | releasedir hno => exact ready_modify fun _ => rfl

/-! ### What the requests throw -/

/-- From a state with the invariant and `F`, the request throws only what is derived from `std::exception`. -/
def ThrowsStd (F : CatFS σ → Prop) (f : FsM σ α) : Prop :=
  ∀ fs, Indexed PartsSized fs → F fs → ∀ e fs', f fs = .error e fs' → e.isStdException = true

section
variable {F : CatFS σ → Prop} {P : World σ → Prop}

theorem throwsStd_runMeta {p : MetaM σ α} {Q : α → World σ → Prop} (h : Sane P p Q) :
    ThrowsStd (fun fs => P fs.world) (runMeta p) := by
  intro fs hfs hP e fs' hrun
  rw [runMeta, zoom] at hrun
  cases hr : p.run fs.world with
  | ok a w =>
    rw [hr] at hrun
    cases hrun
  | error e' w =>
    rw [hr] at hrun
    obtain ⟨rfl, -⟩ := Result.error.inj hrun
    exact h.error ⟨hfs.inv, hP⟩ hr

theorem throwsStd_openfile {ino : InodeID} {hasWrote : Bool} : ThrowsStd (fun _ => True) (openfile ino hasWrote : FsM σ _) := by
  intro fs hfs _ e fs' hrun
  cases ha : fs.world.cache.lookup ino with
  | none =>
    rw [run_openfile_none ha] at hrun
    obtain ⟨rfl, -⟩ := Result.error.inj hrun
    rfl
  | some a =>
    obtain ⟨path, hpath⟩ := LocalMemMeta.fullPath_some hfs.inv (hfs.inv.indexed _ _ ha).1
    rw [run_openfile ha hpath] at hrun
    cases hrun

section
variable (hst : st.ThrowsStd)
include hst

theorem throwsStd_readfile {off limit : Nat} :
    ThrowsStd (fun fs => ∃ file, fs.openFiles hno = some file) (readfile st hno off limit) := by
  rintro fs - ⟨file, hf⟩ e fs' hrun
  have hread : ∀ req, Behaves (fun _ : CatFS σ => True) (zoom (fun fs : CatFS σ => fs.world.stor) (fun t fs => fs.setStor t)
      (st.readFile req)) (fun _ _ => True) fun e _ => e.isStdException = true := by
    refine fun req => .zoom fun fs _ => ?_
    cases hr : st.readFile req fs.world.stor with
    | ok resp t => trivial
    | error e t => exact hst.readFile _ _ _ _ hr
  have hbody : Behaves (fun _ : CatFS σ => True) (file.read st off limit) (fun _ _ => True) fun e _ => e.isStdException = true :=
    .ite (fun _ => .pure fun _ _ => trivial) fun _ => .ite (fun _ => .pure fun _ _ => trivial) fun _ =>
      (hread _).bind fun _ => .pure fun _ _ => trivial
  rw [readfile, bind_ok (run_openFile hf)] at hrun
  exact hbody.error trivial hrun

theorem throwsStd_writefile {off : Nat} {data : List Byte} (h8 : st.EightMiB) (hlt : data.length < 2 ^ 31) :
    ThrowsStd (fun fs => ∃ file, fs.openFiles hno = some file ∧ file.writer.Takes off data) (writefile st hno off data) := by
  rintro fs hfs ⟨file, hf, htakes⟩ e fs' hrun
  obtain ⟨a, ha⟩ := hfs.file hno file hf
  cases hw : (SequenceWriter.write st.toUploadStor off data.length data).run (file.writer, fs.world.stor) with
  | ok k s =>
    rw [writefile_ok hf ha hw] at hrun
    cases hrun
  | error e' s =>
    rw [writefile_error hf hw] at hrun
    obtain ⟨rfl, -⟩ := Result.error.inj hrun
    exact write_std hst h8 (hfs.writer hno file hf) hlt htakes hw

theorem throwsStd_releaseFile : ThrowsStd (fun fs => ∃ file, fs.openFiles hno = some file) (releaseFile st hno) := by
  rintro fs - ⟨file, hf⟩ e fs' hrun
  cases hw : (SequenceWriter.release st.toUploadStor).run (file.writer, fs.world.stor) with
  | ok k s =>
    rw [releaseFile_ok hf hw] at hrun
    cases hrun
  | error e' s =>
    rw [releaseFile_error hf hw] at hrun
    obtain ⟨rfl, -⟩ := Result.error.inj hrun
    exact release_std hst hw

end

end

/-! ### Replies -/

/-- From a state with the invariant, `P` and the replies `l`, the call makes no reply, and throws only what is derived
    from `std::exception`. -/
abbrev Silent (l : List FuseReply) (P : FuseAdapter σ → Prop) (m : FuseM σ α) : Prop :=
  Behaves (fun s => (Ready s ∧ s.replies = l) ∧ P s) m (fun _ s => Ready s ∧ s.replies = l) fun e s =>
    s.replies = l ∧ e.isStdException = true

/-- The call makes one reply, unless it throws before it. -/
abbrev RepliesOnce (l : List FuseReply) (P : FuseAdapter σ → Prop) (m : FuseM σ Unit) : Prop :=
  Behaves (fun s => (Ready s ∧ s.replies = l) ∧ P s) m (fun _ s => ∃ r, s.replies = l ++ [r]) fun e s =>
    s.replies = l ∧ e.isStdException = true

/-- The handler returns, with one more reply. -/
def Answers (m : FuseM σ Unit) (s : FuseAdapter σ) : Prop := ∃ s' r, m s = .ok () s' ∧ s'.replies = s.replies ++ [r]

section
variable {l : List FuseReply} {P : FuseAdapter σ → Prop} {F : CatFS σ → Prop}

theorem silent_onCatfs {f : FsM σ α} {Q : α → CatFS σ → Prop} (hf : Sound PartsSized (fun _ => True) f Q) (h : ThrowsStd F f) :
    Silent l (fun s => F s.catfs) (onCatfs f) := by
  rintro s ⟨⟨hs, rfl⟩, hF⟩
  have hready := ready_onCatfs hf s hs
  rw [onCatfs, zoom] at hready ⊢
  cases hr : f s.catfs with
  | ok a fs =>
    rw [hr] at hready
    exact ⟨hready, rfl⟩
  | error e fs => exact ⟨rfl, h s.catfs hs hF e fs hr⟩

theorem silent_runMeta {p : MetaM σ α} {Q : α → World σ → Prop} (ht : Tame p) (h : Sane (fun _ => True) p Q) :
    Silent l (fun _ => True) (onCatfs (runMeta p)) := silent_onCatfs (sound_runMeta ht) (throwsStd_runMeta h)

theorem silent_getDentry {ino : InodeID} : Silent l (fun _ => True) (onCatfs (runMeta (getDentry ino)) : FuseM σ _) :=
  silent_runMeta tame_getDentry (sane_reads (P := fun _ => True) (Q := fun _ _ => True) fun _ _ _ => ⟨_, rfl, trivial⟩)

theorem silent_pure {a : α} : Silent l P (pure a : FuseM σ α) := .pure fun _ hs => hs.1

/-- Two calls without a reply. -/
theorem Silent.next {β : Type} {m : FuseM σ α} {f : α → FuseM σ β} (hm : Silent l P m)
    (hf : ∀ a, Silent l (fun _ => True) (f a)) : Silent l P (m >>= f) :=
  Behaves.bind hm fun a => (hf a).pre fun _ hs => ⟨hs, trivial⟩

theorem silent_inodeOf {a : Addr} : Silent l P (inodeOf a : FuseM σ _) := fun _ hs => hs.1

theorem once_reply {r : FuseReply} : RepliesOnce l P (reply r) := by
  rintro s ⟨⟨-, rfl⟩, -⟩
  exact ⟨r, rfl⟩

/-- A call without a reply, and then one. -/
theorem Silent.bind {m : FuseM σ α} {f : α → FuseM σ Unit} (hm : Silent l P m)
    (hf : ∀ a, RepliesOnce l (fun _ => True) (f a)) : RepliesOnce l P (m >>= f) :=
  Behaves.bind hm fun a => (hf a).pre fun _ hs => ⟨hs, trivial⟩

end

section
variable {clauses : Err → Option Nat} {body : FuseM σ Unit} {P : FuseAdapter σ → Prop} {e : Err}

/-- The clauses take what is derived from `std::exception`, and only that. -/
def Catches (clauses : Err → Option Nat) : Prop := ∀ e, clauses e = none ↔ e.isStdException = false

theorem catches_std : Catches catchStd := fun e => by
  rw [catchStd]
  split <;> simp_all

theorem catches_enoent : Catches catchEnoent := fun e => by
  rw [catchEnoent]
  split
  · subst e
    exact ⟨fun h => (by cases h), fun h => (by cases h)⟩
  · exact catches_std e

theorem catches_enotempty : Catches catchEnotempty := fun e => by
  rw [catchEnotempty]
  split
  · subst e
    exact ⟨fun h => (by cases h), fun h => (by cases h)⟩
  · exact catches_std e

theorem answers_catching (hc : Catches clauses) (h : RepliesOnce s.replies P body) (hs : Ready s) (hP : P s) :
    Answers (catching clauses body) s := by
  cases hr : body s with
  | ok a s' =>
    obtain ⟨r, hreplies⟩ := h.ok ⟨⟨hs, rfl⟩, hP⟩ hr
    exact ⟨s', r, catching_ok hr, hreplies⟩
  | error e s' =>
    obtain ⟨hreplies, hstd⟩ := h.error ⟨⟨hs, rfl⟩, hP⟩ hr
    cases hcode : clauses e with
    | none =>
      rw [(hc e).mp hcode] at hstd
      cases hstd
    | some code => exact ⟨_, .err code, catching_some hr hcode, congrArg (· ++ _) hreplies⟩

/-- What the clauses do not take leaves the handler. -/
theorem not_answers (hc : Catches clauses) (h : body s = .error e s') (he : e.isStdException = false) :
    ¬ Answers (catching clauses body) s := by
  rintro ⟨s₁, r, hrun, -⟩
  rw [catching_none h ((hc e).mpr he)] at hrun
  cases hrun

end

/-! ### Open directories -/

section
variable {dir : OpenDir} {off limit : Nat}

/-- The entries that a read of the open directory takes a range of: those that were read before, or else those that
    `load_sub_dentries` lists. -/
def entries (st : Stor σ) (fuel : Nat) (dir : OpenDir) (s : FuseAdapter σ) : Option (List Dirent) :=
  if dir.dentries = [] then
    match (loadSubDentries st fuel dir.ino).run s.catfs.world with
    | .ok dentries _ => some dentries
    | .error _ _ => none
  else some dir.dentries

theorem run_loadDentries_ok {dentries : List Dirent} {w : World σ}
    (h : (loadSubDentries st fuel dir.ino).run s.catfs.world = .ok dentries w) :
    loadDentries st fuel hno dir s = .ok dentries (setDentries { s with catfs := { s.catfs with world := w } } hno dentries) := by
  simp only [loadDentries, onCatfs, zoom, runMeta, h]

theorem run_loadDentries_error (hno : HandleID) {e : Err} {w : World σ}
    (h : (loadSubDentries st fuel dir.ino).run s.catfs.world = .error e w) :
    ∃ s', loadDentries st fuel hno dir s = .error e s' ∧ s'.replies = s.replies := by
  simp only [loadDentries, onCatfs, zoom, runMeta, h]
  cases s.catfs.world.cache.lookup dir.ino <;> exact ⟨_, rfl, rfl⟩

theorem run_readDir_none (h : s.openDirs hno = none) :
    readDir st fuel hno off limit s = .error (.cstr "hno is not valid".toList) s := by
  have hget : (get : FuseM σ _) s = .ok s s := rfl
  rw [readDir, bind_ok hget, h]
  rfl

/-- How a read of an open directory ends: with its range of the entries, past their end, or when they cannot be
    listed. -/
def ReadsDir (st : Stor σ) (fuel : Nat) (dir : OpenDir) (off limit : Nat) (s : FuseAdapter σ) :
    Result Err (FuseAdapter σ) (List Dirent) → Prop
  | .ok ret s' => s'.replies = s.replies ∧ ∃ dentries, entries st fuel dir s = some dentries ∧ slice dentries off limit = some ret
  | .error e s' => s'.replies = s.replies ∧
      ((∃ dentries, entries st fuel dir s = some dentries ∧ slice dentries off limit = none ∧ e = .pastEnd) ∨
        entries st fuel dir s = none ∧ ∃ w, (loadSubDentries st fuel dir.ino).run s.catfs.world = .error e w)

theorem readsDir_assign {dentries : List Dirent} (h : entries st fuel dir s = some dentries) (hr : s'.replies = s.replies) :
    ReadsDir st fuel dir off limit s (assign dentries off limit s') := by
  rw [assign]
  cases hsl : slice dentries off limit with
  | none => exact ⟨hr, .inl ⟨dentries, h, hsl, rfl⟩⟩
  | some ret => exact ⟨hr, dentries, h, hsl⟩

theorem run_readDir (h : s.openDirs hno = some dir) :
    ReadsDir st fuel dir off limit s (readDir st fuel hno off limit s) := by
  have hget : (get : FuseM σ _) s = .ok s s := rfl
  rw [readDir, bind_ok hget, h]
  dsimp only
  by_cases hnil : dir.dentries = []
  · rw [if_pos hnil]
    cases hr : (loadSubDentries st fuel dir.ino).run s.catfs.world with
    | ok dentries w =>
      have hentries : entries st fuel dir s = some dentries := by simp only [entries, hnil, if_true, hr]
      rw [bind_ok (run_loadDentries_ok hr)]
      exact readsDir_assign hentries rfl
    | error e w =>
      have hentries : entries st fuel dir s = none := by simp only [entries, hnil, if_true, hr]
      obtain ⟨s', hload, hreplies⟩ := run_loadDentries_error hno hr
      rw [bind_error hload]
      exact ⟨hreplies, .inr ⟨hentries, w, hr⟩⟩
  · have hentries : entries st fuel dir s = some dir.dentries := by simp only [entries, hnil, if_false]
    rw [if_neg hnil]
    exact readsDir_assign hentries rfl

end

/-! ### The handlers -/

section
variable (hst : st.ThrowsStd)
include hst

theorem answers_lookup {parent : InodeID} {name : Str} (hs : Ready s) : Answers (lookup opt st parent name) s := by
  refine answers_catching catches_std (Silent.bind (silent_runMeta tame_findDentry (sane_findDentry hst)) fun r => ?_) hs trivial
  cases r with
  | none => exact once_reply
  | some a => exact silent_inodeOf.bind fun _ => once_reply

omit hst in
theorem answers_getattr {ino : InodeID} (hs : Ready s) : Answers (getattr ino) s := by
  have hlookup : Silent s.replies (fun _ => True) (lookupInode ino : FuseM σ _) := by
    refine silent_getDentry.next fun r => ?_
    cases r with
    | none => exact silent_pure
    | some a => exact silent_inodeOf.next fun _ => silent_pure
  refine answers_catching catches_std (Silent.bind hlookup fun r => ?_) hs trivial
  cases r <;> exact once_reply

theorem answers_mkdir {parent : InodeID} {name : Str} {mode : Mode} (hs : Ready s) :
    Answers (mkdir opt st parent name mode) s :=
  answers_catching catches_std (Silent.bind (silent_runMeta tame_createDentry (sane_createDentry hst)) fun _ =>
    silent_inodeOf.bind fun _ => once_reply) hs trivial

theorem answers_remove {parent : InodeID} {name : Str} {clauses : Err → Option Nat} (hc : Catches clauses) (hs : Ready s) :
    Answers (catching clauses do
      onCatfs (runMeta (removeDentry opt st parent name))
      reply (.err 0)) s :=
  answers_catching hc (Silent.bind (silent_runMeta tame_removeDentry (sane_removeDentry hst)) fun _ => once_reply) hs trivial

end

section
variable (h8 : st.EightMiB)
include h8

theorem silent_openfile {l : List FuseReply} {ino : InodeID} {hasWrote : Bool} :
    Silent l (fun _ => True) (onCatfs (openfile ino hasWrote) : FuseM σ _) :=
  silent_onCatfs (sound_openfile (writes_sized h8)) throwsStd_openfile

theorem answers_open {ino : InodeID} {hasWrote : Bool} (hs : Ready s) : Answers (openHandler ino hasWrote) s :=
  answers_catching catches_enoent (Silent.bind (silent_openfile h8) fun _ => once_reply) hs trivial

theorem answers_create (hst : st.ThrowsStd) {parent : InodeID} {name : Str} {mode : Mode} {hasWrote : Bool} (hs : Ready s) :
    Answers (FuseAdapter.create opt st parent name mode hasWrote) s :=
  answers_catching catches_std (Silent.bind (silent_runMeta tame_createDentry (sane_createDentry hst)) fun _ =>
    silent_inodeOf.bind fun _ => Silent.bind (silent_openfile h8) fun _ => silent_inodeOf.bind fun _ => once_reply) hs trivial

omit h8 in
theorem answers_opendir {ino : InodeID} (hs : Ready s) : Answers (opendirHandler ino) s := by
  have hnever : ThrowsStd (fun _ => True) (getNextHandleId : FsM σ _) := fun _ _ _ _ _ h => by cases h
  have hnext : Silent s.replies (fun _ => True) (onCatfs getNextHandleId : FuseM σ _) :=
    silent_onCatfs sound_getNextHandleId hnever
  have hset : ∀ dir, Silent s.replies (fun _ => True)
      (modify fun s => { s with openDirs := Function.update s.openDirs dir.hno (some dir) } : FuseM σ Unit) :=
    fun _ _ hs => hs.1
  have hopen : Silent s.replies (fun _ => True) (opendir ino : FuseM σ _) := by
    refine silent_getDentry.next fun r => ?_
    cases r with
    | none => exact .throw fun _ hs => ⟨hs.1.2, rfl⟩
    | some a => exact hnext.next fun hno => silent_inodeOf.next fun inode =>
        (hset { ino := inode.ino, hno, dentries := [] }).next fun _ => silent_pure
  exact answers_catching catches_enoent (Silent.bind hopen fun _ => once_reply) hs trivial

end

/-! ### The requests on handles -/

/-- A read of an unknown handle throws an `int`. -/
theorem answers_read (hst : st.ThrowsStd) {off limit : Nat} (hs : Ready s) :
    Answers (FuseAdapter.read st hno off limit) s ↔ ∃ file, s.catfs.openFiles hno = some file := by
  constructor
  · intro h
    by_contra hunknown
    have hnone := Option.eq_none_iff_forall_ne_some.mpr fun file hf => hunknown ⟨file, hf⟩
    have hread : readfile st hno off limit s.catfs = .error (.int ENOENT) s.catfs := by
      rw [readfile, bind_error (run_openFile_none hnone)]
    exact not_answers catches_std (bind_error (zoom_error hread)) rfl h
  · intro hf
    exact answers_catching catches_std (Silent.bind (silent_onCatfs sound_readfile (throwsStd_readfile hst)) fun _ =>
      once_reply) hs hf

theorem answers_release (hst : st.ThrowsStd) (h8 : st.EightMiB) (hs : Ready s) :
    Answers (FuseAdapter.release st hno) s ↔ ∃ file, s.catfs.openFiles hno = some file := by
  constructor
  · intro h
    by_contra hunknown
    have hnone := Option.eq_none_iff_forall_ne_some.mpr fun file hf => hunknown ⟨file, hf⟩
    have hrelease : releaseFile st hno s.catfs = .error (.int ENOENT) s.catfs := by
      rw [releaseFile, bind_error (run_openFile_none hnone)]
    exact not_answers catches_std (bind_error (zoom_error hrelease)) rfl h
  · intro hf
    exact answers_catching catches_std (Silent.bind (silent_onCatfs (sound_releaseFile (writes_sized h8))
      (throwsStd_releaseFile hst)) fun _ => once_reply) hs hf

section
variable {off : Nat} {data : List Byte}

/-- The handle takes the write. -/
def Takes (s : FuseAdapter σ) (hno : HandleID) (off : Nat) (data : List Byte) : Prop :=
  ∃ file, s.catfs.openFiles hno = some file ∧ file.writer.Takes off data

theorem writefile_not_taken (h : ¬ Takes s hno off data) :
    ∃ e fs, writefile st hno off data s.catfs = .error e fs ∧ e.isStdException = false := by
  cases hf : s.catfs.openFiles hno with
  | none =>
    have hwrite : writefile st hno off data s.catfs = .error (.int ENOENT) s.catfs := by
      rw [writefile, bind_error (run_openFile_none hf)]
    exact ⟨_, _, hwrite, rfl⟩
  | some file =>
    obtain ⟨e, s', hw, he⟩ := write_not_taken (S := st.toUploadStor) (t := s.catfs.world.stor) fun ht => h ⟨file, hf, ht⟩
    exact ⟨e, _, writefile_error hf hw, he⟩

section
variable (hst : st.ThrowsStd) (h8 : st.EightMiB) (hlt : data.length < 2 ^ 31)
include hst h8 hlt

theorem silent_writefile {l : List FuseReply} : Silent l (Takes · hno off data) (onCatfs (writefile st hno off data)) :=
  silent_onCatfs (sound_writefile (writes_sized h8)) (throwsStd_writefile hst h8 hlt)

theorem answers_write (hs : Ready s) : Answers (FuseAdapter.write st hno off data) s ↔ Takes s hno off data := by
  constructor
  · intro h
    by_contra hnot
    obtain ⟨e, fs, hw, he⟩ := writefile_not_taken hnot
    exact not_answers catches_std (bind_error (zoom_error hw)) he h
  · intro h
    exact answers_catching catches_std (Silent.bind (silent_writefile hst h8 hlt) fun _ => once_reply) hs h

theorem answers_writeBuf (hs : Ready s) : Answers (FuseAdapter.writeBuf st hno off data) s ↔ Takes s hno off data := by
  constructor
  · intro h
    by_contra hnot
    obtain ⟨e, fs, hw, he⟩ := writefile_not_taken hnot
    exact not_answers catches_std (bind_error (bind_error (zoom_error hw))) he h
  · intro h
    have hbufs : Silent s.replies (Takes · hno off data) (writeBufs st hno [data] off 0) :=
      (silent_writefile hst h8 hlt).next fun _ => silent_pure
    exact answers_catching catches_std (Silent.bind hbufs fun _ => once_reply) hs h

end

end

/-! ### The requests on open directories -/

section
variable {off limit : Nat} {rank : σ → Str → Str → Nat}

/-- The range lies inside the entries of the open directory, when these can be listed. -/
def InRange (st : Stor σ) (fuel : Nat) (s : FuseAdapter σ) (hno : HandleID) (off limit : Nat) : Prop :=
  ∃ dir, s.openDirs hno = some dir ∧ ∀ dentries, entries st fuel dir s = some dentries → (slice dentries off limit).isSome

/-- The turns that the refresh of the directory open under `hno` needs at most. -/
def dirPages (rank : σ → Str → Str → Nat) (hno : HandleID) (s : FuseAdapter σ) : Nat :=
  match s.openDirs hno with
  | some dir => pages rank dir.ino s.catfs.world
  | none => 0

theorem silent_readDir {l : List FuseReply} (hst : st.ThrowsStd) (hends : st.ListsEnd rank) :
    Silent l (fun s => InRange st fuel s hno off limit ∧ dirPages rank hno s ≤ fuel) (readDir st fuel hno off limit) := by
  rintro s ⟨⟨hs, rfl⟩, ⟨dir, hdir, hrange⟩, hfuel⟩
  have hkeep : KeepsReady (readDir st fuel hno off limit) := ready_readDir
  have hready := hkeep s hs
  have hreads : ReadsDir st fuel dir off limit s (readDir st fuel hno off limit s) := run_readDir hdir
  cases hr : readDir st fuel hno off limit s with
  | ok ret s' =>
    rw [hr] at hready hreads
    exact ⟨hready, hreads.1⟩
  | error e s' =>
    rw [hr] at hreads
    refine ⟨hreads.1, ?_⟩
    rcases hreads.2 with ⟨dentries, hentries, hsl, -⟩ | ⟨-, w, hload⟩
    · have hsome := hrange dentries hentries
      rw [hsl] at hsome
      cases hsome
    · rw [dirPages, hdir] at hfuel
      exact (sane_loadSubDentries hst hends).error ⟨hs.inv, hfuel⟩ hload

theorem readDir_not_inRange (h : ¬ InRange st fuel s hno off limit) :
    ∃ e s', readDir st fuel hno off limit s = .error e s' ∧ e.isStdException = false := by
  cases hdir : s.openDirs hno with
  | none => exact ⟨_, _, run_readDir_none hdir, rfl⟩
  | some dir =>
    have hpast : ∃ dentries, entries st fuel dir s = some dentries ∧ slice dentries off limit = none := by
      by_contra hno
      refine h ⟨dir, hdir, fun dentries hentries => ?_⟩
      cases hsl : slice dentries off limit with
      | some ret => rfl
      | none => exact absurd ⟨dentries, hentries, hsl⟩ hno
    obtain ⟨dentries, hentries, hsl⟩ := hpast
    have hreads : ReadsDir st fuel dir off limit s (readDir st fuel hno off limit s) := run_readDir hdir
    cases hr : readDir st fuel hno off limit s with
    | ok ret s' =>
      rw [hr] at hreads
      obtain ⟨-, dentries', hentries', hsl'⟩ := hreads
      rw [hentries, Option.some.injEq] at hentries'
      rw [← hentries', hsl] at hsl'
      cases hsl'
    | error e s' =>
      rw [hr] at hreads
      rcases hreads.2 with ⟨-, -, -, rfl⟩ | ⟨hnone, -⟩
      · exact ⟨_, _, rfl, rfl⟩
      · rw [hentries] at hnone
        cases hnone

/-- What both handlers do: they read the directory and then reply. -/
theorem answers_readDir (hst : st.ThrowsStd) (hends : st.ListsEnd rank) (hs : Ready s) (hfuel : dirPages rank hno s ≤ fuel)
    (f : List Dirent → FuseAdapter σ → FuseReply) :
    Answers (catching catchStd do
      let dirents ← readDir st fuel hno off limit
      let s ← get
      reply (f dirents s)) s ↔ InRange st fuel s hno off limit := by
  have hget : ∀ dirents, RepliesOnce s.replies (fun _ => True) (do
      let s ← get
      reply (f dirents s) : FuseM σ Unit) := by
    rintro dirents s' ⟨⟨-, hreplies⟩, -⟩
    exact ⟨f dirents s', congrArg (· ++ _) hreplies⟩
  constructor
  · intro h
    by_contra hnot
    obtain ⟨e, s', hr, he⟩ := readDir_not_inRange hnot
    exact not_answers catches_std (bind_error hr) he h
  · intro h
    exact answers_catching catches_std (Silent.bind (silent_readDir hst hends) hget) hs ⟨h, hfuel⟩

end

end FuseAdapter

end Catfs
