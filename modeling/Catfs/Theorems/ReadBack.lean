import Catfs.Theorems.HandleKeys
import Catfs.Theorems.Mounts
import Catfs.Theorems.ObjectTimes
import Catfs.Theorems.ReadRange

/-! # What another mount reads of a file

A file of at most 8 MiB is written through one handle, while every mount may do anything else, and closed. As long as no
request changes the object, a mount that does not know the name finds it and reads what was written. -/

namespace Catfs

open Lib MetaM LocalMemMeta WriterM SequenceWriter MetaImpl CatFS
open EStateM (Result)
open Relation

section
variable {σ α : Type} {S : UploadStor σ} {st : Stor σ} {w : SequenceWriter} {t : σ} {acc data : List Byte} {off size : Nat}
  {fs : CatFS σ} {hno hno' : HandleID} {path : Str}

/-! ### A writer that never left PUT mode -/

/-- The writer holds `acc` in its part, and sent nothing. -/
structure SequenceWriter.Collects (w : SequenceWriter) (acc : List Byte) : Prop where
  mode : w.uptype = .PUT
  offset : w.nextWriteOffset = acc.length
  size : w.putOrNew.partSize = MB_8
  buf : w.putOrNew.buf = acc
  woff : w.putOrNew.woff = acc.length

theorem collects_new : (SequenceWriter.new path).Collects [] := ⟨rfl, rfl, rfl, rfl, rfl⟩

/-- A sequential write that fits in the part is staged. -/
theorem SequenceWriter.Collects.write (h : w.Collects acc) (hfits : acc.length + data.length ≤ MB_8) : ∃ w',
    (SequenceWriter.write S acc.length data.length data).run (w, t) = .ok (toInt data.length) (w', t) ∧
      w'.Collects (acc ++ data) ∧ w'.filePath = w.filePath := by
  have hlen : (acc ++ data).length = acc.length + data.length := List.length_append
  have hlt := MB_8_lt
  by_cases hnil : data = []
  · subst hnil
    refine ⟨w, ?_, by rwa [List.append_nil], rfl⟩
    rw [run_write h.offset, List.length_nil, run_writeData_nil]
    rfl
  · have hpos : 0 < data.length := List.length_pos_iff.mpr hnil
    have hroom : w.putOrNew.woff ≠ w.putOrNew.partSize := by
      rw [h.woff, h.size]
      omega
    refine ⟨(w.setPart .put (some (w.putOrNew.append data data.length))).advance data.length, ?_, ?_, rfl⟩
    · rw [run_write h.offset, writeData, run_writeLoop_put_room h.mode rfl hroom hpos (by omega)]
    · refine ⟨h.mode, ?_, h.size, ?_, ?_⟩
      · rw [hlen, ← h.offset]
        rfl
      · show w.putOrNew.buf.take w.putOrNew.woff ++ data.take data.length = _
        rw [h.buf, h.woff, List.take_length, List.take_length]
      · rw [hlen, ← h.woff]
        rfl

theorem SequenceWriter.Collects.putPart (h : w.Collects acc) (hne : acc ≠ []) : ∃ p, w.putPart = some p ∧
    p.buf.take p.len = acc := by
  have hbuf := h.buf
  have hwoff := h.woff
  rw [putOrNew] at hbuf hwoff
  cases hp : w.putPart with
  | none =>
    rw [hp] at hbuf
    exact absurd hbuf.symm hne
  | some p =>
    rw [hp, Option.getD_some] at hbuf hwoff
    exact ⟨p, rfl, by rw [Part.len, hwoff, hbuf, List.take_length]⟩

/-- A release leaves the part where it is. -/
theorem SequenceWriter.Collects.release (h : w.Collects acc) : (endState ((release S).run (w, t))).1 = w := by
  by_cases h0 : w.nextWriteOffset = 0
  · rw [run_release_nothing h0]
    rfl
  · cases hp : w.putPart with
    | none =>
      rw [run_release_empty h.mode hp]
      rfl
    | some p =>
      rw [run_release_put h0 h.mode hp]
      cases S.putFile _ t <;> rfl

/-! ### Requests beside the handle -/

/-- `hno` is open on `path`, and its writer holds `acc`. -/
structure Collecting (hno : HandleID) (path : Str) (acc : List Byte) (fs : CatFS σ) : Prop where
  issued : hno < fs.nextHandleId
  file : ∃ file, fs.openFiles hno = some file ∧ file.writer.Collects acc ∧ file.writer.filePath = path

abbrev Collected (hno : HandleID) (path : Str) (acc : List Byte) (f : FsM σ α) : Prop :=
  Behaves (Collecting hno path acc) f (fun _ => Collecting hno path acc) fun _ => Collecting hno path acc

theorem Collecting.update {fs' : CatFS σ} {r : Option OpenFile} (h : Collecting hno path acc fs)
    (hnext : fs.nextHandleId ≤ fs'.nextHandleId) (hfiles : fs'.openFiles = Function.update fs.openFiles hno' r)
    (hr : hno = hno' → ∃ file, r = some file ∧ file.writer.Collects acc ∧ file.writer.filePath = path) :
    Collecting hno path acc fs' := by
  refine ⟨Nat.lt_of_lt_of_le h.issued hnext, ?_⟩
  rw [hfiles]
  by_cases hh : hno = hno'
  · subst hh
    rw [Function.update_self]
    exact hr rfl
  · rw [Function.update_of_ne hh]
    exact h.file

theorem collected_runMeta {q : MetaM σ α} : Collected hno path acc (runMeta q) := by
  intro fs h
  rw [runMeta, zoom]
  cases q.run fs.world with
  | ok a w => exact ⟨h.issued, h.file⟩
  | error e w => exact ⟨h.issued, h.file⟩

theorem collected_openFile : Collected hno path acc (openFile hno' : FsM σ _) := by
  intro fs h
  cases hf : fs.openFiles hno' with
  | none =>
    rw [run_openFile_none hf]
    exact h
  | some file =>
    rw [run_openFile hf]
    exact h

/-- A change that leaves the writer alone. -/
theorem collected_modifyFile {f : OpenFile → OpenFile} (hw : hno = hno' → ∀ file, (f file).writer = file.writer) :
    Collected hno path acc (modifyFile hno' f : FsM σ _) := by
  refine fun fs h => h.update (Nat.le_refl _) rfl fun hh => ?_
  subst hh
  obtain ⟨file, hf, hfile⟩ := h.file
  exact ⟨f file, by rw [hf]; rfl, by rwa [hw rfl]⟩

theorem collected_runWriter {file : OpenFile} {p : WriterM σ α} (hne : hno ≠ hno') :
    Collected hno path acc (runWriter hno' file p) := by
  intro fs h
  rw [run_runWriter]
  cases p.run (file.writer, fs.world.stor) with
  | ok a s => exact h.update (Nat.le_refl _) rfl fun hh => absurd hh hne
  | error e s => exact h.update (Nat.le_refl _) rfl fun hh => absurd hh hne

theorem collected_openfile {ino : InodeID} {hasWrote : Bool} : Collected hno path acc (openfile ino hasWrote : FsM σ _) := by
  refine Behaves.bind collected_runMeta fun r => ?_
  cases r with
  | none => exact .throw fun _ h => h
  | some a =>
    -- The new handle is none of those that were issued before.
    have hnext : Behaves (Collecting hno path acc) (getNextHandleId : FsM σ _)
        (fun h fs => hno ≠ h ∧ Collecting hno path acc fs) fun _ => Collecting hno path acc :=
      fun fs h => ⟨Nat.ne_of_lt h.issued, Nat.lt_succ_of_lt h.issued, h.file⟩
    refine hnext.bind fun hno' fs h => ?_
    have hset : ∀ file, Collected hno path acc (do modify (·.setFile hno' file); pure hno' : FsM σ _) := fun file fs hfs =>
      hfs.update (Nat.le_refl _) rfl fun hh => absurd hh h.1
    exact (collected_runMeta.bind fun _ => collected_runMeta.bind fun _ => hset _) fs h.2

theorem collected_readfile : Collected hno path acc (readfile st hno' off size) := by
  have hpure : ∀ data : List Byte, Collected hno path acc (pure data : FsM σ _) := fun _ => .pure fun _ h => h
  have hread : ∀ req, Collected hno path acc
      (zoom (fun fs : CatFS σ => fs.world.stor) (fun t fs => fs.setStor t) (st.readFile req)) := by
    refine fun req => Behaves.zoom fun fs h => ?_
    cases st.readFile req fs.world.stor with
    | ok r t => exact ⟨h.issued, h.file⟩
    | error e t => exact ⟨h.issued, h.file⟩
  exact collected_openFile.bind fun file => .ite (fun _ => hpure _) fun _ => .ite (fun _ => hpure _) fun _ =>
    (hread _).bind fun _ => hpure _

/-- A write on another handle, or one that does not continue where the last one ended. -/
theorem collected_writefile (hne : hno = hno' → off ≠ acc.length) : Collected hno path acc (writefile st hno' off data) := by
  by_cases hh : hno = hno'
  · subst hh
    intro fs h
    obtain ⟨file, hf, hw, hpath⟩ := h.file
    have hreject : file.writer.nextWriteOffset ≠ off := by
      rw [hw.offset]
      exact Ne.symm (hne rfl)
    rw [writefile_error hf (run_write_reject data hreject)]
    exact h.update (Nat.le_refl _) rfl fun _ => ⟨_, rfl, hw, hpath⟩
  · have hmodify : ∀ f, Collected hno path acc (modifyFile hno' f : FsM σ _) := fun f =>
      collected_modifyFile fun h => absurd h hh
    have hwrite : Collected hno path acc (OpenFile.write st hno' off data.length data) :=
      (hmodify _).bind fun _ => collected_openFile.bind fun file => (collected_runWriter hh).bind fun _ => hmodify _
    refine collected_openFile.bind fun _ => hwrite.bind fun _ => collected_openFile.bind fun file => .ite (fun _ => ?_) fun _ =>
      .pure fun _ h => h
    exact collected_runMeta.bind fun _ => .pure fun _ h => h

theorem collected_releaseFile : Collected hno path acc (releaseFile st hno') := by
  by_cases hh : hno = hno'
  · subst hh
    intro fs h
    obtain ⟨file, hf, hw, hpath⟩ := h.file
    have hsame : (endState ((release st.toUploadStor).run (file.writer, fs.world.stor))).1 = file.writer := hw.release
    cases hr : (release st.toUploadStor).run (file.writer, fs.world.stor) with
    | ok u s =>
      rw [hr] at hsame
      rw [releaseFile_ok hf hr]
      exact h.update (Nat.le_refl _) rfl fun _ => ⟨_, rfl, by rwa [← hsame] at hw, by rwa [← hsame] at hpath⟩
    | error e s =>
      rw [hr] at hsame
      rw [releaseFile_error hf hr]
      exact h.update (Nat.le_refl _) rfl fun _ => ⟨_, rfl, by rwa [← hsame] at hw, by rwa [← hsame] at hpath⟩
  · exact collected_openFile.bind fun _ => (collected_runWriter hh).bind fun _ => collected_modifyFile fun _ _ => rfl

/-- The request continues the writes of `hno` at the offset `off`. -/
def FsReq.Appends (hno : HandleID) (off : Nat) (r : FsReq) : Prop := ∃ data, r = .writefile hno off data

theorem collected_exec {opt : MetaOpt} {r : FsReq} (hr : ¬ r.Appends hno acc.length) :
    Collected hno path acc (r.exec opt st) := by
  cases r with
  | request fuel r => exact collected_runMeta
  | openfile ino hasWrote => exact collected_openfile.bind fun _ => .pure fun _ h => h
  | readfile hno' off size => exact collected_readfile.bind fun _ => .pure fun _ h => h
  | writefile hno' off data =>
    refine Behaves.bind (collected_writefile fun hh hoff => ?_) fun _ => .pure fun _ h => h
    subst hh hoff
    exact hr ⟨data, rfl⟩
  | releaseFile hno' => exact collected_releaseFile

/-- The step lemma of a write that returned. -/
theorem Collecting.write (h : Collecting hno path acc fs) (hfits : acc.length + data.length ≤ MB_8) {n : Nat} {fs' : CatFS σ}
    (hok : writefile st hno acc.length data fs = .ok n fs') : Collecting hno path (acc ++ data) fs' := by
  obtain ⟨file, hf, hw, hpath⟩ := h.file
  obtain ⟨w', hrun, hw', hpath'⟩ := hw.write (S := st.toUploadStor) (t := fs.world.stor) hfits
  obtain ⟨hf', -⟩ := writefile_wrote hf hrun hok
  have hopen : (fs.openFiles hno).isSome = true := by rw [hf]; rfl
  have hsame : CatFS.SameHandles fs fs' := by
    have hkeeps : KeepsFiles hno (writefile st hno acc.length data) := keepsFiles_writefile _ _
    have hend := hkeeps.endState hopen trivial
    rw [hok] at hend
    exact hend.2
  exact ⟨hsame.next.symm ▸ h.issued, _, hf', hw', hpath'.trans hpath⟩

theorem Collecting.opened {ino : InodeID} {a : Addr} {hasWrote : Bool} {fs' : CatFS σ} (ha : fs.world.cache.lookup ino = some a)
    (hpath : fs.world.cache.fullPath a = some path) (hok : openfile ino hasWrote fs = .ok hno fs') :
    Collecting hno path [] fs' := by
  rw [run_openfile ha hpath] at hok
  obtain ⟨rfl, rfl⟩ := Result.ok.inj hok
  exact ⟨Nat.lt_succ_self _, _, setFile_self, collects_new, rfl⟩

/-- A release that returned put the data that the writer held. -/
theorem Collecting.released {c : S3Client σ} {view : σ → Bucket} (hc : c.Atomic view) (h : Collecting hno path acc fs)
    (hne : acc ≠ []) (hpath : path ≠ []) {fs' : CatFS σ} (hok : releaseFile (s3Stor c) hno fs = .ok () fs') :
    view fs'.world.stor = (view fs.world.stor).put path acc := by
  obtain ⟨file, hf, hw, hp⟩ := h.file
  obtain ⟨p, hpart, hbuf⟩ := hw.putPart hne
  have h0 : file.writer.nextWriteOffset ≠ 0 := by
    rw [hw.offset]
    exact fun h => hne (List.length_eq_zero_iff.mp h)
  cases hr : (release (s3Stor c).toUploadStor).run (file.writer, fs.world.stor) with
  | error e s =>
    rw [releaseFile_error hf hr] at hok
    cases hok
  | ok u s =>
    rw [releaseFile_ok hf hr] at hok
    obtain ⟨-, rfl⟩ := Result.ok.inj hok
    rw [run_release_put h0 hw.mode hpart] at hr
    simp only [s3Stor, Option.getD_some, orServerError, hbuf, hp] at hr
    cases hput : c.putObject path acc fs.world.stor with
    | ok u t =>
      rw [hput] at hr
      obtain ⟨-, rfl⟩ := Result.ok.inj hr
      exact hc.put_ok _ _ _ _ hpath hput
    | error e t =>
      rw [hput] at hr
      cases hr

end

/-! ### A file that is looked up, opened and read -/

section
variable {σ : Type} {c : S3Client σ} {view : σ → Bucket} {opt : MetaOpt} {m : LocalMemMeta} {t : σ} {fs : CatFS σ} {ino : InodeID}
  {a : Addr} {n : Str} {body : List Byte} {hno : HandleID} {file : OpenFile} {off size : Nat}

/-- A lookup of a name that is not cached finds the object, with its length. -/
theorem find_object (hc : c.Serves view) (hm : m.Inv) (ha : m.lookup ino = some a) (hno : (m.heap a).getChild n = none)
    (hbody : view t (m.dirPrefix a ++ n) = some body) (now : Timespec) (garbage : Garbage) : ∃ ch s,
      (findDentry opt (s3Stor c) ino n false).run ⟨m, t, now, garbage⟩ = .ok (some ch) s ∧ CacheInv s ∧ view s.stor = view t ∧
        ch < s.cache.heapNext ∧ s.cache.fullPath ch = some (m.dirPrefix a ++ n) ∧ (s.cache.heap ch).inode.size = body.length := by
  have halloc := (hm.indexed _ _ ha).1
  have hkey : view t (entryKey (m.dirPrefix a ++ n) false) = some body := hbody
  obtain ⟨t₁, r, t', -, -, hview, g, hremote⟩ := run_getRemoteObj_object hc hm halloc hkey (fun h => by cases h) now garbage
  have hinv : (m.issue.link a n (m.objInode now (objInfo g [] body.length r.lastModified) false)).Inv :=
    hm.issue.link halloc hm.fresh
  have hgrow : Grow m (m.issue.link a n (m.objInode now (objInfo g [] body.length r.lastModified) false)) :=
    Grow.issue.trans (.link hm.issue halloc hm.fresh)
  have hmade := heap_link_new (m := m.issue) n (m.objInode now (objInfo g [] body.length r.lastModified) false) halloc
  rw [heapNext_issue] at hmade
  refine ⟨_, _, run_findDentry_found hm ha hno hremote rfl, hinv.set Mild.incTtl, hview, Nat.lt_succ_self _, ?_, ?_⟩
  · have hchild : ((m.issue.link a n (m.objInode now (objInfo g [] body.length r.lastModified) false)).heap a).getChild n =
        some m.heapNext := by
      rw [heap_link_parent (m := m.issue) halloc]
      exact AList.lookup_insert _
    have hlt : a < (m.issue.link a n (m.objInode now (objInfo g [] body.length r.lastModified) false)).heapNext :=
      Nat.lt_of_lt_of_le halloc hgrow.next
    have hpath := fullPath_child hinv hlt hchild
    rw [dirPrefix_grow hm hgrow halloc] at hpath
    have htouched : Mild (Dentry.incTtl · now opt.dcacheTimeout) := Mild.incTtl
    exact (fullPath_grow hinv (.set htouched) (Nat.lt_succ_self m.heapNext)).trans hpath
  · dsimp only
    rw [heap_set_self, hmade]
    rfl

/-- A read returns the bytes of the object in its range. -/
theorem readfile_bytes (hc : c.ServesRanges view) (hopen : fs.openFiles hno = some file)
    (hbody : view fs.world.stor file.rtfile.path = some body) (hsame : file.rtfile.size = body.length)
    (hlen : body.length < 2 ^ 63) (hoff : off < 2 ^ 63) (hsize : size < 2 ^ 31) :
    ∃ fs', readfile (s3Stor c) hno off size fs = .ok (body.extract off (min (off + size) body.length)) fs' := by
  rw [readfile, bind_ok (run_openFile hopen), OpenFile.read]
  by_cases hpast : body.length ≤ off
  · rw [extract_min (.inl hpast)]
    simp only [hsame, if_pos hpast]
    exact ⟨fs, rfl⟩
  have hclamp := reads_clamped hoff hsize hlen (Nat.lt_of_not_le hpast)
  simp only [hsame, hclamp, if_neg hpast]
  by_cases hzero : size = 0
  · have hnone : min (off + size) body.length - off = 0 := by omega
    rw [extract_min (.inr hzero), if_pos hnone]
    exact ⟨fs, rfl⟩
  have hsome : min (off + size) body.length - off ≠ 0 := by omega
  have hlast : off + (min (off + size) body.length - off) - 1 + 1 = min (off + size) body.length := by omega
  obtain ⟨t, hget, -⟩ := hc.get fs.world.stor file.rtfile.path body off (off + (min (off + size) body.length - off) - 1) hbody
    (by omega) (by omega)
  rw [hlast] at hget
  have hlength : (body.extract off (min (off + size) body.length)).length = min (off + size) body.length - off := by
    rw [List.extract_eq_take_drop, List.length_take, List.length_drop]
    omega
  have hreq : orServerError (c.getObject file.rtfile.path off (off + (min (off + size) body.length - off) - 1)) fs.world.stor =
      .ok (body.extract off (min (off + size) body.length)) t := by rw [orServerError, hget]
  have hread : (s3Stor c).readFile { objKey := file.rtfile.path, off, size := min (off + size) body.length - off } fs.world.stor =
      .ok { dst := body.extract off (min (off + size) body.length), bytes := min (off + size) body.length - off } t := by
    simp only [s3Stor, lastByte_eq hsome (show off + (min (off + size) body.length - off) ≤ 2 ^ 64 by omega)]
    rw [bind_ok hreq]
    show Result.ok _ _ = _
    rw [hlength]
  have hzoom : zoom (fun fs : CatFS σ => fs.world.stor) (fun t fs => fs.setStor t)
      ((s3Stor c).readFile { objKey := file.rtfile.path, off, size := min (off + size) body.length - off }) fs =
      .ok _ (fs.setStor t) := zoom_ok hread
  refine ⟨fs.setStor t, ?_⟩
  rw [if_neg hsome, bind_ok hzoom]
  have hall : (body.extract off (min (off + size) body.length)).take (min (off + size) body.length - off) =
      body.extract off (min (off + size) body.length) := by
    rw [List.take_of_length_le (Nat.le_of_eq hlength)]
  exact congrArg (Result.ok · (fs.setStor t)) hall

end

namespace Mounts
variable {ι σ : Type} [DecidableEq ι] {x y : Mounts ι σ} {i j : ι} {r : FsReq} {opt : ι → MetaOpt} {st : Stor σ}
  {c : S3Client σ} {view : σ → Bucket} {path n : Str} {acc : List Byte} {hno : HandleID}

/-- The mount `i` opened `hno` on the file at `path`, and since then accepted the data `acc` through it, in writes that each
    continued where the last one ended. Between them every mount may do anything else, with this handle too. -/
inductive Accepts (opt : ι → MetaOpt) (st : Stor σ) (i : ι) (path : Str) (hno : HandleID) : Mounts ι σ → List Byte → Prop where
  | opened {x : Mounts ι σ} {ino : InodeID} {a : Addr} {hasWrote : Bool} {fs : CatFS σ} (hx : x.AllIndexed)
      (dentry : (x.side i).world.cache.lookup ino = some a) (full : (x.side i).world.cache.fullPath a = some path)
      (run : openfile ino hasWrote (x.side i) = .ok hno fs) : Accepts opt st i path hno (x.setSide i fs) []
  | write {x : Mounts ι σ} {acc data : List Byte} {k : Nat} {fs : CatFS σ} (h : Accepts opt st i path hno x acc)
      (run : writefile st hno acc.length data (x.side i) = .ok k fs) : Accepts opt st i path hno (x.setSide i fs) (acc ++ data)
  | request {x : Mounts ι σ} {acc : List Byte} {j : ι} {r : FsReq} (h : Accepts opt st i path hno x acc)
      (other : j = i → ¬ r.Appends hno acc.length) : Accepts opt st i path hno (x.serve opt st j r) acc
  | clock {x : Mounts ι σ} {acc : List Byte} {j : ι} {now : Timespec} (h : Accepts opt st i path hno x acc) :
      Accepts opt st i path hno (x.setNow j now) acc

theorem collecting_over {τ : Type} {fs : CatFS τ} (t : σ) (h : Collecting hno path acc fs) : Collecting hno path acc (fs.over t) :=
  ⟨h.issued, h.file⟩

/-- The run lemma: as long as the data fits in the part, the writer holds it. -/
theorem Accepts.collecting (h : Accepts opt st i path hno x acc) (hfits : acc.length ≤ MB_8) :
    Collecting hno path acc (x.mount i) := by
  induction h with
  | opened hx dentry full run =>
    have hopened := Collecting.opened dentry full run
    simpa [setSide] using collecting_over () hopened
  | @write x acc data k fs h run ih =>
    have hlen : (acc ++ data).length = acc.length + data.length := List.length_append
    have hwrite := (collecting_over x.stor (ih (by omega))).write (by omega) run
    simpa [setSide] using collecting_over () hwrite
  | @request x acc j r h other ih =>
    by_cases hj : j = i
    · subst hj
      have hexec : Collected hno path acc (r.exec (opt j) st) := collected_exec (other rfl)
      have hend := hexec.endState (collecting_over x.stor (ih hfits))
      simpa [serve, setSide, side] using collecting_over () hend
    · simpa [serve, setSide, Function.update_of_ne (Ne.symm hj)] using ih hfits
  | @clock x acc j now h ih =>
    by_cases hj : j = i
    · subst hj
      have hnow : Collecting hno path acc { x.mount j with world := { (x.mount j).world with now } } :=
        ⟨(ih hfits).issued, (ih hfits).file⟩
      simpa [setNow] using hnow
    · simpa [setNow, Function.update_of_ne (Ne.symm hj)] using ih hfits

theorem serve_ok {fs : CatFS σ} (h : r.exec (opt i) st (x.side i) = .ok () fs) : x.serve opt st i r = x.setSide i fs := by
  rw [serve, h]
  rfl

theorem Accepts.allIndexed (h : Accepts opt st i path hno x acc) : x.AllIndexed := by
  induction h with
  | @opened x ino a hasWrote fs hx _ _ run =>
    have hexec : (FsReq.openfile ino hasWrote).exec (opt i) st (x.side i) = .ok () fs := bind_ok run
    exact serve_ok hexec ▸ allIndexed_serve hx
  | @write x acc data k fs h run ih =>
    have hexec : (FsReq.writefile hno acc.length data).exec (opt i) st (x.side i) = .ok () fs := bind_ok run
    exact serve_ok hexec ▸ allIndexed_serve ih
  | request _ _ ih => exact allIndexed_serve ih
  | clock _ ih => exact allIndexed_setNow ih

/-- The file was closed on one mount with at most 8 MiB accepted, and no request of any mount has changed the object since.
    Then a mount that has the directory of the file but not its name looks the name up, opens it and reads, at any offset
    and size, the bytes that were accepted. -/
theorem written_then_read (hserves : c.Serves view) (hatomic : c.Atomic view) (hranges : c.ServesRanges view)
    (hx : Accepts opt (s3Stor c) i path hno x acc) (hfits : acc.length ≤ MB_8) (hne : acc ≠ []) (hpath : path ≠ [])
    {fs : CatFS σ} (hclose : releaseFile (s3Stor c) hno (x.side i) = .ok () fs)
    (hy : ReflTransGen (Keeping (fun z => view z.stor path) (Step opt (s3Stor c))) (x.setSide i fs) y) {ino : InodeID} {a : Addr}
    (ha : (y.mount j).world.cache.lookup ino = some a) (hdir : (y.mount j).world.cache.dirPrefix a ++ n = path)
    (hno' : ((y.mount j).world.cache.heap a).getChild n = none) (hasWrote : Bool) : ∃ ch fs₁ h fs₂,
      runMeta (findDentry (opt j) (s3Stor c) ino n false) (y.side j) = .ok (some ch) fs₁ ∧
      openfile (fs₁.world.cache.heap ch).inode.ino hasWrote fs₁ = .ok h fs₂ ∧
      ∀ off size, off < 2 ^ 63 → size < 2 ^ 31 → ∃ fs₃,
        readfile (s3Stor c) h off size fs₂ = .ok (acc.extract off (min (off + size) acc.length)) fs₃ := by
  have hcollect : Collecting hno path acc (x.side i) := collecting_over x.stor (hx.collecting hfits)
  have hput : view fs.world.stor path = some acc := by
    rw [hcollect.released hatomic hne hpath hclose, Bucket.put, Function.update_self]
  have hbody : view y.stor path = some acc := (observe_keeping hy).trans hput
  have hindexed : y.AllIndexed := by
    have hexec : (FsReq.releaseFile hno).exec (opt i) (s3Stor c) (x.side i) = .ok () fs := hclose
    have hclosed : (x.setSide i fs).AllIndexed :=
      serve_ok hexec ▸ allIndexed_serve hx.allIndexed
    exact allIndexed_steps hclosed (runs_of_keeping hy)
  rw [← hdir] at hbody
  obtain ⟨ch, s, hfind, hinv, hview, hlt, hfull, hsize⟩ :=
    find_object hserves (hindexed j).inv ha hno' hbody (y.mount j).world.now (y.mount j).world.garbage
  have hlookup : s.cache.lookup (s.cache.heap ch).inode.ino = some ch := Inv.index hinv ch hlt
  have hfound : runMeta (findDentry (opt j) (s3Stor c) ino n false) (y.side j) = .ok (some ch) { y.side j with world := s } :=
    zoom_ok hfind
  refine ⟨ch, { y.side j with world := s }, _, _, hfound, run_openfile hlookup hfull, fun off size hoff hlt => ?_⟩
  have hshort : acc.length < 2 ^ 63 := Nat.lt_trans (Nat.lt_of_le_of_lt hfits MB_8_lt) (by decide)
  exact readfile_bytes hranges setFile_self ((congrFun hview _).trans hbody) hsize hshort hoff hlt

/-- One mount made the file `f`. -/
def created : Mounts Bool Log :=
  (start (fun _ => ⟨0, 0, 60⟩) [] ⟨0, 0⟩ noGarbage).serve (fun _ => ⟨0, 0, 60⟩) (s3Stor Log.client) false
    (.request 1 (.create ROOT_INODE_ID ['f'] S_IFREG))

/-- It opened the file. -/
def opened : Mounts Bool Log := created.serve (fun _ => ⟨0, 0, 60⟩) (s3Stor Log.client) false (.openfile 2 false)

/-- It wrote two bytes. -/
def wrote : Mounts Bool Log := opened.serve (fun _ => ⟨0, 0, 60⟩) (s3Stor Log.client) false (.writefile 0 0 [1, 2])

/-- It closed the file. -/
def closed : Mounts Bool Log := wrote.serve (fun _ => ⟨0, 0, 60⟩) (s3Stor Log.client) false (.releaseFile 0)

theorem written_then_read_twoBytes : ∃ ch fs₁ h fs₂,
    runMeta (findDentry ⟨0, 0, 60⟩ (s3Stor Log.client) ROOT_INODE_ID ['f'] false) (closed.side true) = .ok (some ch) fs₁ ∧
    openfile (fs₁.world.cache.heap ch).inode.ino false fs₁ = .ok h fs₂ ∧
    ∀ off size, off < 2 ^ 63 → size < 2 ^ 31 → ∃ fs₃,
      readfile (s3Stor Log.client) h off size fs₂ = .ok ([1, 2].extract off (min (off + size) 2)) fs₃ := by
  have hcreated : created.AllIndexed := allIndexed_serve allIndexed_start
  have hdentry : (created.side false).world.cache.lookup 2 = some 1 := by decide +kernel
  have hfull : (created.side false).world.cache.fullPath 1 = some ['f'] := by decide +kernel
  have hnext : (created.side false).nextHandleId = 0 := by decide +kernel
  have hopen : openfile 2 false (created.side false) = _ := run_openfile hdentry hfull
  rw [hnext] at hopen
  have hopened : Accepts (fun _ => ⟨0, 0, 60⟩) (s3Stor Log.client) false ['f'] 0 opened [] := by
    have hexec : (FsReq.openfile 2 false).exec ⟨0, 0, 60⟩ (s3Stor Log.client) (created.side false) = .ok () _ := bind_ok hopen
    have hserve : opened = _ := serve_ok hexec
    exact hserve ▸ .opened hcreated hdentry hfull hopen
  have hreturned : returned (writefile (s3Stor Log.client) 0 0 [1, 2] (opened.side false)) = true := by decide +kernel
  have hwrote : Accepts (fun _ => ⟨0, 0, 60⟩) (s3Stor Log.client) false ['f'] 0 wrote [1, 2] := by
    cases hwrite : writefile (s3Stor Log.client) 0 0 [1, 2] (opened.side false) with
    | error e fs =>
      rw [hwrite] at hreturned
      cases hreturned
    | ok k fs =>
      have hexec : (FsReq.writefile 0 0 [1, 2]).exec ⟨0, 0, 60⟩ (s3Stor Log.client) (opened.side false) = .ok () fs := bind_ok hwrite
      have hserve : wrote = _ := serve_ok hexec
      exact hserve ▸ hopened.write hwrite
  have hclose : releaseFile (s3Stor Log.client) 0 (wrote.side false) = .ok () _ := unit_of_returned (by decide +kernel)
  exact written_then_read (j := true) Log.client_serves Log.client_atomic Log.client_servesRanges hwrote (by decide) (by decide)
    (by decide) hclose .refl (a := 0) rfl rfl rfl false

end Mounts

end Catfs
