import Catfs.Theorems.DirLoads
import Catfs.Theorems.FuseReplies
import Catfs.Theorems.TreeShape
import Catfs.Theorems.WriteRoom

/-! # Requests that are answered

A request is answered where its handler makes its one reply and nothing that it does on the way is undefined: the process
need not live to the reply otherwise. Both are settled by the state before the request and by what the store answers
(`answered_iff`). -/

namespace Catfs

open Lib CatFS MetaImpl SequenceWriter FuseAdapter
open EStateM (Result)

variable {σ : Type} {opt : MetaOpt} {st : Stor σ} {size : DirentSize} {s : FuseAdapter σ} {rank : σ → Str → Str → Nat}
  {serves : Nat → Prop} {fuel : Nat} {hno : HandleID} {off limit : Nat} {data : List Byte}

/-- The dentry that the number leads to hangs in the tree, so it was not freed. -/
def LocalMemMeta.Alive (m : LocalMemMeta) (ino : InodeID) : Prop := ∀ a, m.lookup ino = some a → m.Attached a

/-- A buffer of `limit` bytes, where `malloc` serves the sizes `serves`, takes `n` bytes, and an `int` counts them. -/
def Buffered (serves : Nat → Prop) (limit n : Nat) : Prop := n = 0 ∨ serves limit ∧ n ≤ limit ∧ n < 2 ^ 31

/-! ### Reads of a file -/

/-- The size that `OpenFile::read` asks the store for. -/
def OpenFile.asks (file : OpenFile) (off size : Nat) : Nat :=
  if file.rtfile.size < u64 (off + size) then u64 (file.rtfile.size - off) else size

/-- The bytes that the store sends for the read, if it is asked, fit the buffer. -/
def OpenFile.Fits (st : Stor σ) (serves : Nat → Prop) (file : OpenFile) (off limit : Nat) (t : σ) : Prop :=
  off < file.rtfile.size → file.asks off limit ≠ 0 → ∀ resp t',
    st.readFile { objKey := file.rtfile.path, off, size := file.asks off limit } t = .ok resp t' →
      Buffered serves limit (resp.dst.take resp.bytes).length

theorem run_readfile {file : OpenFile} (hf : s.catfs.openFiles hno = some file) : readfile st hno off limit s.catfs =
    if file.rtfile.size ≤ off then .ok [] s.catfs
    else if file.asks off limit = 0 then .ok [] s.catfs
    else match st.readFile { objKey := file.rtfile.path, off, size := file.asks off limit } s.catfs.world.stor with
      | .ok resp t => .ok (resp.dst.take resp.bytes) (s.catfs.setStor t)
      | .error e t => .error e (s.catfs.setStor t) := by
  have hread : file.read st off limit = if file.rtfile.size ≤ off then pure [] else if file.asks off limit = 0 then pure []
      else zoom (fun fs : CatFS σ => fs.world.stor) (fun t fs => fs.setStor t)
        (st.readFile { objKey := file.rtfile.path, off, size := file.asks off limit }) >>= fun resp =>
          pure (resp.dst.take resp.bytes) := rfl
  rw [readfile, bind_ok (run_openFile hf), hread]
  split
  · rfl
  split
  · rfl
  cases hr : st.readFile { objKey := file.rtfile.path, off, size := file.asks off limit } s.catfs.world.stor with
  | ok resp t =>
    have hcall : zoom (fun fs : CatFS σ => fs.world.stor) (fun t fs => fs.setStor t)
        (st.readFile { objKey := file.rtfile.path, off, size := file.asks off limit }) s.catfs = .ok resp (s.catfs.setStor t) :=
      zoom_ok hr
    exact bind_ok hcall
  | error e t =>
    have hcall : zoom (fun fs : CatFS σ => fs.world.stor) (fun t fs => fs.setStor t)
        (st.readFile { objKey := file.rtfile.path, off, size := file.asks off limit }) s.catfs = .error e (s.catfs.setStor t) :=
      zoom_error hr
    exact bind_error hcall

theorem readfile_fits_iff {file : OpenFile} (hf : s.catfs.openFiles hno = some file) :
    (∀ data fs, readfile st hno off limit s.catfs = .ok data fs → Buffered serves limit data.length) ↔
      file.Fits st serves off limit s.catfs.world.stor := by
  have hnil : Buffered serves limit ([] : List Byte).length := .inl rfl
  rw [run_readfile hf, OpenFile.Fits]
  by_cases hpast : file.rtfile.size ≤ off
  · rw [if_pos hpast]
    refine iff_of_true (fun data fs h => ?_) fun h => absurd h (Nat.not_lt.mpr hpast)
    obtain ⟨rfl, -⟩ := Result.ok.inj h
    exact hnil
  rw [if_neg hpast]
  by_cases hzero : file.asks off limit = 0
  · rw [if_pos hzero]
    refine iff_of_true (fun data fs h => ?_) fun _ h => absurd hzero h
    obtain ⟨rfl, -⟩ := Result.ok.inj h
    exact hnil
  rw [if_neg hzero]
  cases hr : st.readFile { objKey := file.rtfile.path, off, size := file.asks off limit } s.catfs.world.stor with
  | error e t => exact iff_of_true (fun _ _ h => by cases h) fun _ _ _ _ h => by cases h
  | ok resp t =>
    constructor
    · intro h _ _ resp' t' hresp
      obtain ⟨rfl, -⟩ := Result.ok.inj hresp
      exact h _ _ rfl
    · intro h data fs hdata
      obtain ⟨rfl, -⟩ := Result.ok.inj hdata
      exact h (Nat.lt_of_not_le hpast) hzero resp t rfl

/-! ### Writes -/

/-- Around its loop a write copies nothing, and one at another offset never comes to the loop. -/
theorem harmless_write_iff {w : SequenceWriter} {t : σ} {S : UploadStor σ} (h : w.nextWriteOffset = off) :
    (∀ l ∈ (SequenceWriter.write S off data.length data).trace (w, t), l.InOwnMemory serves) ↔
      HarmlessRun serves (writeData S data data.length) (w, t) := by
  rw [← harmlessRun_iff, SequenceWriter.write, harmless_bind_ok harmless_fields run_fields, if_neg (not_not_intro h),
    HarmlessRun, Prog.within_bind]
  refine and_iff_left_of_imp fun _ => ?_
  cases (writeData S data data.length).run (w, t) with
  | error e s' => trivial
  | ok a s' => exact harmless_bind harmless_update fun _ _ => harmless_pure

/-- Parts of 8 MiB are what the loop stages in. -/
theorem stages_sized {w : SequenceWriter} {t : σ} (h8 : st.EightMiB) (hw : w.PartsSized) : Stages st.toUploadStor (w, t) where
  put _ := by
    rw [putOrNew]
    cases hp : w.putPart with
    | none => rfl
    | some p => exact hw .put p hp
  mput p _ hp := by
    rw [hw .mput p hp]
    exact MB_8_pos
  minit r t' hr := by
    rw [h8 _ _ _ _ hr]
    decide
  held r t' _ hr hne := absurd (h8 _ _ _ _ hr) hne

/-! ### Directories -/

/-- The length of the range. -/
def sliceLength (n off size : Nat) : Option Nat :=
  if n < off then none
  else if n ≤ u64 (off + size) then some (n - off)
  else if u64 (off + size) < off then none
  else some (u64 (off + size) - off)

theorem length_slice (dentries : List Dirent) : (slice dentries off limit).map List.length =
    sliceLength dentries.length off limit := by
  rw [slice, sliceLength]
  split
  · rfl
  split
  · simp only [Option.map_some, List.length_drop]
  split
  · rfl
  · simp only [Option.map_some, List.length_take, List.length_drop, Option.some.injEq]
    omega

/-- How many entries a read of the open directory takes a range of. -/
def entryCount (st : Stor σ) (fuel : Nat) (dir : OpenDir) (w : World σ) : Option Nat :=
  if dir.dentries = [] then (w.cache.lookup dir.ino).bind fun a => loadCount st fuel a w else some dir.dentries.length

theorem length_entries {dir : OpenDir} (hs : Ready s) (hspares : dir.dentries = [] →
    ∀ a, s.catfs.world.cache.lookup dir.ino = some a → SparesAll st fuel a s.catfs.world) :
    (entries st fuel dir s).map List.length = entryCount st fuel dir s.catfs.world := by
  rw [entries, entryCount]
  by_cases hnil : dir.dentries = []
  · rw [if_pos hnil, if_pos hnil]
    cases ha : s.catfs.world.cache.lookup dir.ino with
    | none => rw [run_loadSubDentries_none ha]; rfl
    | some a =>
      have hload := load_count hs.inv ha (hspares hnil a ha)
      rw [Option.bind_some]
      cases hn : loadCount st fuel a s.catfs.world with
      | some n =>
        simp only [hn] at hload
        obtain ⟨ds, w', hrun, hlen⟩ := hload
        rw [hrun, ← hlen]
        rfl
      | none =>
        simp only [hn] at hload
        obtain ⟨e, w', hrun⟩ := hload
        rw [hrun]
        rfl
  · rw [if_neg hnil, if_neg hnil]
    rfl

/-- The read returns the range of its entries. -/
theorem readDir_range {dir : OpenDir} {dentries ret : List Dirent} (hdir : s.openDirs hno = some dir)
    (hentries : entries st fuel dir s = some dentries) (hslice : slice dentries off limit = some ret) :
    ∃ s', readDir st fuel hno off limit s = .ok ret s' := by
  have hreads : ReadsDir st fuel dir off limit s (readDir st fuel hno off limit s) := run_readDir hdir
  cases hr : readDir st fuel hno off limit s with
  | ok ret' s' =>
    rw [hr] at hreads
    obtain ⟨-, dentries', hentries', hslice'⟩ := hreads
    obtain rfl := Option.some.inj (hentries.symm.trans hentries')
    obtain rfl := Option.some.inj (hslice.symm.trans hslice')
    exact ⟨s', rfl⟩
  | error e s' =>
    rw [hr] at hreads
    rcases hreads.2 with ⟨dentries', hentries', hslice', -⟩ | ⟨hnone, -⟩
    · obtain rfl := Option.some.inj (hentries.symm.trans hentries')
      rw [hslice] at hslice'
      cases hslice'
    · rw [hentries] at hnone
      cases hnone

/-- What a handler that reads an open directory does to the memory is defined; `shows` are the entries whose inodes it
    reads. The directory that it lists was not freed, nor was an entry read before, the sweep removes no child, and `calloc`
    served the buffer for what it fills in. -/
structure DirUnharmed (st : Stor σ) (serves : Nat → Prop) (fuel : Nat) (s : FuseAdapter σ) (shows : Dirent → Prop)
    (hno : HandleID) (limit off : Nat) : Prop where
  load : ∀ dir, s.openDirs hno = some dir → dir.dentries = [] →
    s.catfs.world.cache.Alive dir.ino ∧ Survives (loadSubDentries st fuel dir.ino) s.catfs.world
  entries : ∀ dir, s.openDirs hno = some dir → ∀ ret, slice dir.dentries off limit = some ret →
    ∀ d ∈ ret, shows d → s.catfs.world.cache.Attached d.inode
  buffer : ∀ ret s', readDir st fuel hno off limit s = .ok ret s' → ret = [] ∨ serves limit

/-- The state before lets the handler read the open directory. -/
structure DirMeets (st : Stor σ) (serves : Nat → Prop) (fuel : Nat) (s : FuseAdapter σ) (shows : Dirent → Prop)
    (dir : OpenDir) (limit off : Nat) : Prop where
  alive : dir.dentries = [] → s.catfs.world.cache.Alive dir.ino
  spares : dir.dentries = [] → ∀ a, s.catfs.world.cache.lookup dir.ino = some a → SparesAll st fuel a s.catfs.world
  entries : ∀ ret, slice dir.dentries off limit = some ret → ∀ d ∈ ret, shows d → s.catfs.world.cache.Attached d.inode
  range : ∀ n, entryCount st fuel dir s.catfs.world = some n → ∃ k, sliceLength n off limit = some k ∧ (k = 0 ∨ serves limit)

theorem dir_answered_iff {shows : Dirent → Prop} (hs : Ready s) :
    InRange st fuel s hno off limit ∧ DirUnharmed st serves fuel s shows hno limit off ↔
      ∃ dir, s.openDirs hno = some dir ∧ DirMeets st serves fuel s shows dir limit off := by
  constructor
  · rintro ⟨⟨dir, hdir, hrange⟩, hunharmed⟩
    have hspares : dir.dentries = [] → ∀ a, s.catfs.world.cache.lookup dir.ino = some a → SparesAll st fuel a s.catfs.world :=
      fun hnil a ha => (survives_load_iff hs.inv ha).mp (hunharmed.load dir hdir hnil).2
    refine ⟨dir, hdir, fun hnil => (hunharmed.load dir hdir hnil).1, hspares, hunharmed.entries dir hdir, fun n hn => ?_⟩
    rw [← length_entries hs hspares, Option.map_eq_some_iff] at hn
    obtain ⟨dentries, hentries, rfl⟩ := hn
    obtain ⟨ret, hret⟩ := Option.isSome_iff_exists.mp (hrange dentries hentries)
    obtain ⟨s', hread⟩ := readDir_range hdir hentries hret
    refine ⟨ret.length, ?_, (hunharmed.buffer ret s' hread).imp_left fun h => by rw [h, List.length_nil]⟩
    rw [← length_slice, hret, Option.map_some]
  · rintro ⟨dir, hdir, hmeets⟩
    have hlen := length_entries hs hmeets.spares
    have hslice : ∀ dentries, entries st fuel dir s = some dentries → ∃ ret, slice dentries off limit = some ret ∧
        (ret = [] ∨ serves limit) := by
      intro dentries hentries
      rw [hentries, Option.map_some] at hlen
      obtain ⟨k, hk, hserves⟩ := hmeets.range _ hlen.symm
      rw [← length_slice, Option.map_eq_some_iff] at hk
      obtain ⟨ret, hret, rfl⟩ := hk
      exact ⟨ret, hret, hserves.imp_left List.length_eq_zero_iff.mp⟩
    have honly : ∀ {dir' : OpenDir}, s.openDirs hno = some dir' → dir' = dir := fun h => Option.some.inj (h.symm.trans hdir)
    refine ⟨⟨dir, hdir, fun dentries hentries => ?_⟩, fun dir' hdir' hnil => ?_, fun dir' hdir' => ?_, fun ret s' hread => ?_⟩
    · obtain ⟨ret, hret, -⟩ := hslice dentries hentries
      rw [hret]
      rfl
    · obtain rfl := honly hdir'
      refine ⟨hmeets.alive hnil, ?_⟩
      cases ha : s.catfs.world.cache.lookup dir'.ino with
      | some a => exact (survives_load_iff hs.inv ha).mpr (hmeets.spares hnil a ha)
      | none => exact survives_load_none ha
    · obtain rfl := honly hdir'
      exact hmeets.entries
    · have hreads : ReadsDir st fuel dir off limit s (readDir st fuel hno off limit s) := run_readDir hdir
      rw [hread] at hreads
      obtain ⟨-, dentries, hentries, hret⟩ := hreads
      obtain ⟨ret', hret', hserves⟩ := hslice dentries hentries
      obtain rfl := Option.some.inj (hret.symm.trans hret')
      exact hserves

/-! ### The requests -/

/-- What the request does to the memory is defined: the dentries that its numbers lead to were not freed, no sweep removes a
    child, and what it copies goes to buffers that `malloc` served and that take it. -/
def FuseReq.Unharmed (st : Stor σ) (serves : Nat → Prop) (fuel : Nat) (s : FuseAdapter σ) : FuseReq → Prop
  | .lookup ino _ | .mkdir ino _ _ | .unlink ino _ | .rmdir ino _ | .create ino _ _ _ | .getattr ino | .openfile ino _
  | .opendir ino => s.catfs.world.cache.Alive ino
  | .read hno off limit => ∀ data fs, readfile st hno off limit s.catfs = .ok data fs → Buffered serves limit data.length
  | .write hno off data | .writeBuf hno off data => ∀ file, s.catfs.openFiles hno = some file →
      s.catfs.world.cache.Alive file.ino ∧
        ∀ l ∈ (SequenceWriter.write st.toUploadStor off data.length data).trace (file.writer, s.catfs.world.stor),
          l.InOwnMemory serves
  | .readdir hno limit off =>
      DirUnharmed st serves fuel s (fun d => d.name ≠ ['.'] ∧ d.name ≠ ['.', '.']) hno limit off
  | .readdirplus hno limit off => DirUnharmed st serves fuel s (fun _ => True) hno limit off
  | .release _ | .releasedir _ => True

/-- The state is one in which the handler answers the request, over the answers that the store gives. -/
def FuseReq.Meets (st : Stor σ) (serves : Nat → Prop) (fuel : Nat) (s : FuseAdapter σ) : FuseReq → Prop
  | .lookup ino _ | .mkdir ino _ _ | .unlink ino _ | .rmdir ino _ | .create ino _ _ _ | .getattr ino | .openfile ino _
  | .opendir ino => s.catfs.world.cache.Alive ino
  | .read hno off limit => ∃ file, s.catfs.openFiles hno = some file ∧ file.Fits st serves off limit s.catfs.world.stor
  | .release hno => ∃ file, s.catfs.openFiles hno = some file
  | .write hno off data | .writeBuf hno off data => ∃ file, s.catfs.openFiles hno = some file ∧
      s.catfs.world.cache.Alive file.ino ∧ file.writer.Takes off data ∧
        Room st.toUploadStor serves data.length (file.writer, s.catfs.world.stor)
  | .readdir hno limit off => ∃ dir, s.openDirs hno = some dir ∧
      DirMeets st serves fuel s (fun d => d.name ≠ ['.'] ∧ d.name ≠ ['.', '.']) dir limit off
  | .readdirplus hno limit off => ∃ dir, s.openDirs hno = some dir ∧ DirMeets st serves fuel s (fun _ => True) dir limit off
  | .releasedir _ => False

/-- The handler makes its one reply, and the process lives to make it. -/
def Answered (opt : MetaOpt) (st : Stor σ) (size : DirentSize) (serves : Nat → Prop) (fuel : Nat) (r : FuseReq)
    (s : FuseAdapter σ) : Prop := Answers (r.handler opt st size fuel) s ∧ r.Unharmed st serves fuel s

/-- A write is of less than 2 GiB. -/
def FuseReq.Short : FuseReq → Prop
  | .write _ _ data | .writeBuf _ _ data => data.length < 2 ^ 31
  | _ => True

/-- The turns of a listing that the request needs at most. -/
def FuseReq.pages (rank : σ → Str → Str → Nat) (s : FuseAdapter σ) : FuseReq → Nat
  | .readdir hno _ _ | .readdirplus hno _ _ => dirPages rank hno s
  | _ => 0

theorem write_answered_iff (h8 : st.EightMiB) (hs : Ready s) (hlt : data.length < 2 ^ 31) :
    Takes s hno off data ∧ (∀ file, s.catfs.openFiles hno = some file → s.catfs.world.cache.Alive file.ino ∧
      ∀ l ∈ (SequenceWriter.write st.toUploadStor off data.length data).trace (file.writer, s.catfs.world.stor),
        l.InOwnMemory serves) ↔
    ∃ file, s.catfs.openFiles hno = some file ∧ s.catfs.world.cache.Alive file.ino ∧ file.writer.Takes off data ∧
      Room st.toUploadStor serves data.length (file.writer, s.catfs.world.stor) := by
  have hroom : ∀ file, s.catfs.openFiles hno = some file → file.writer.Takes off data →
      ((∀ l ∈ (SequenceWriter.write st.toUploadStor off data.length data).trace (file.writer, s.catfs.world.stor),
        l.InOwnMemory serves) ↔ Room st.toUploadStor serves data.length (file.writer, s.catfs.world.stor)) :=
    fun file hf htakes => (harmless_write_iff htakes.1).trans
      (harmless_writeData (stages_sized h8 (hs.writer hno file hf)) hlt)
  constructor
  · rintro ⟨⟨file, hf, htakes⟩, h⟩
    exact ⟨file, hf, (h file hf).1, htakes, (hroom file hf htakes).mp (h file hf).2⟩
  · rintro ⟨file, hf, halive, htakes, h⟩
    refine ⟨⟨file, hf, htakes⟩, fun file' hf' => ?_⟩
    obtain rfl := Option.some.inj (hf.symm.trans hf')
    exact ⟨halive, (hroom file hf htakes).mpr h⟩

theorem read_answered_iff : (∃ file, s.catfs.openFiles hno = some file) ∧
    (∀ data fs, readfile st hno off limit s.catfs = .ok data fs → Buffered serves limit data.length) ↔
    ∃ file, s.catfs.openFiles hno = some file ∧ file.Fits st serves off limit s.catfs.world.stor := by
  constructor
  · rintro ⟨⟨file, hf⟩, h⟩
    exact ⟨file, hf, (readfile_fits_iff hf).mp h⟩
  · rintro ⟨file, hf, h⟩
    exact ⟨⟨file, hf⟩, (readfile_fits_iff hf).mpr h⟩

/-- In a state with the invariant, the request is answered exactly when the state meets it. -/
theorem FuseReq.answered_of_ready (hs : Ready s) (hst : st.ThrowsStd) (h8 : st.EightMiB) (hends : st.ListsEnd rank)
    (r : FuseReq) (hshort : r.Short) (hfuel : r.pages rank s ≤ fuel) :
    Answered opt st size serves fuel r s ↔ r.Meets st serves fuel s := by
  cases r with
  | lookup parent name => exact and_iff_right (answers_lookup hst hs)
  | getattr ino => exact and_iff_right (answers_getattr hs)
  | mkdir parent name mode => exact and_iff_right (answers_mkdir hst hs)
  | unlink parent name => exact and_iff_right (answers_remove hst catches_std hs)
  | rmdir parent name => exact and_iff_right (answers_remove hst catches_enotempty hs)
  | openfile ino hasWrote => exact and_iff_right (answers_open h8 hs)
  | create parent name mode hasWrote => exact and_iff_right (answers_create h8 hst hs)
  | read hno off limit => exact (and_congr_left' (answers_read hst hs)).trans read_answered_iff
  | write hno off data => exact (and_congr_left' (answers_write hst h8 hshort hs)).trans (write_answered_iff h8 hs hshort)
  | writeBuf hno off buf => exact (and_congr_left' (answers_writeBuf hst h8 hshort hs)).trans (write_answered_iff h8 hs hshort)
  | release hno => exact (and_iff_left trivial).trans (answers_release hst h8 hs)
  | opendir ino => exact and_iff_right (answers_opendir hs)
  | readdir hno limit off => exact (and_congr_left' (answers_readDir hst hends hs hfuel _)).trans (dir_answered_iff hs)
  | readdirplus hno limit off => exact (and_congr_left' (answers_readDir hst hends hs hfuel _)).trans (dir_answered_iff hs)
  | releasedir hno =>
    refine iff_of_false (fun ⟨⟨s', r, hrun, hreplies⟩, _⟩ => ?_) id
    obtain ⟨-, rfl⟩ := Result.ok.inj hrun
    exact absurd (congrArg List.length hreplies) (by simp)

/-- The states that a mount reaches over `st`: from a new one by any requests, with any number of turns for a listing,
    and by changes outside it of the store, the clock and what was never written. -/
inductive Serving (opt : MetaOpt) (st : Stor σ) (size : DirentSize) : FuseAdapter σ → Prop where
  | start (start : Timespec) (t : σ) (now : Timespec) (garbage : Garbage) :
      Serving opt st size { catfs := .start opt start t now garbage, openDirs := fun _ => none, replies := [] }
  | request {s : FuseAdapter σ} (h : Serving opt st size s) (fuel : Nat) (r : FuseReq) :
      Serving opt st size (endState (r.handler opt st size fuel s))
  | outside {s : FuseAdapter σ} (h : Serving opt st size s) (t : σ) (now : Timespec) (garbage : Garbage) :
      Serving opt st size { s with catfs := { s.catfs with world := ⟨s.catfs.world.cache, t, now, garbage⟩ } }

theorem Serving.ready (h8 : st.EightMiB) (h : Serving opt st size s) : Ready s := by
  induction h with
  | start start t now garbage =>
    exact ⟨.new opt _, (fun _ _ hf => by cases hf), fun _ _ hf => by cases hf⟩
  | @request s _ fuel r ih =>
    have hkeep : KeepsReady (r.handler opt st size fuel) := ready_handler h8 r
    have hr := hkeep s ih
    cases hrun : r.handler opt st size fuel s with
    | ok a s' =>
      rw [hrun] at hr
      exact hr
    | error e s' =>
      rw [hrun] at hr
      exact hr
  | outside _ t now garbage ih => exact ⟨ih.inv, ih.file, ih.writer⟩

theorem client_listsEnd : (s3Stor Log.client).ListsEnd fun log pre marker =>
    (after (Log.markerOf marker) (log.entries pre)).length := by
  intro log pre marker resp log' h hr
  have hlist : Log.client.listObjects (pageRequest pre marker) log = .ok (log.listing (pageRequest pre marker)) log := rfl
  rw [MetaImpl.run_listObjects hlist] at h
  obtain ⟨rfl, rfl⟩ := Result.ok.inj h
  exact Log.length_after_nextMarker hr

/-- The requests, one after the other, on a new mount over an empty bucket. -/
def serve (reqs : List FuseReq) : FuseAdapter Log :=
  reqs.foldl (fun s r => endState (r.handler ⟨0, 0, 60⟩ (s3Stor Log.client) ⟨List.length, List.length⟩ 1 s))
    { catfs := .start ⟨0, 0, 60⟩ ⟨0, 0⟩ [] ⟨0, 0⟩ noGarbage, openDirs := fun _ => none, replies := [] }

theorem serving_serve (reqs : List FuseReq) :
    Serving ⟨0, 0, 60⟩ (s3Stor Log.client) ⟨List.length, List.length⟩ (serve reqs) :=
  List.foldlRecOn reqs _ (.start ⟨0, 0⟩ [] ⟨0, 0⟩ noGarbage) fun _ h r _ => h.request 1 r

/-- A new mount on which `f` was created. -/
def createdF : FuseAdapter Log := serve [.create ROOT_INODE_ID ['f'] S_IFREG false]

theorem createdF_file : ∃ file, createdF.catfs.openFiles 0 = some file ∧ file.ino = 2 ∧ file.writer = .new ['f'] := by
  have hfile : (createdF.catfs.openFiles 0).map (fun file => (file.ino, file.writer)) = some (2, .new ['f']) := by decide +kernel
  obtain ⟨file, hf, heq⟩ := Option.map_eq_some_iff.mp hfile
  obtain ⟨hino, hw⟩ := Prod.mk.inj heq
  exact ⟨file, hf, hino, hw⟩

theorem createdF_alive : createdF.catfs.world.cache.Alive 2 := by
  have hindex : createdF.catfs.world.cache.lookup 2 = some 1 := by decide +kernel
  have hroot : createdF.catfs.world.cache.rootDentry = 0 := by decide +kernel
  have hchild : (createdF.catfs.world.cache.heap 0).getChild ['f'] = some 1 := by decide +kernel
  intro a ha
  obtain rfl := Option.some.inj (hindex.symm.trans ha)
  exact (hroot ▸ LocalMemMeta.Attached.root).child hchild

end Catfs
