import Catfs.Theorems.FsRun
import Catfs.Theorems.SizedRequests

/-! # The sizes of closed files

Requests on names and on handles over a store that refuses none of them. A file that no handle is writing has the size of its
object, as long as the last handle to release data for it is also the last that set its size. -/

namespace Catfs

open Lib CatFS MetaImpl LocalMemMeta
open EStateM (Result)

variable {c : S3Client Log} {P : Policy} {opt : MetaOpt} {fs fs' : CatFS Log} {evs : List FileEvent} {e : FileEvent}
  {last : Addr → HandleID → Prop} {hno : HandleID} {a : Addr} {path : Str} {log new : Log}

/-! ### Handles of a file -/

/-- The handle is of the file at `a`. -/
def HandleOf (fs : CatFS Log) (hno : HandleID) (a : Addr) : Prop :=
  ∃ file, fs.openFiles hno = some file ∧ fs.world.cache.lookup file.ino = some a

/-- The handle has accepted data for `path`, and was not released. -/
def WritingTo (fs : CatFS Log) (evs : List FileEvent) (path : Str) (hno : HandleID) : Prop :=
  ∃ file, fs.openFiles hno = some file ∧ file.rtfile.path = path ∧ ¬ Released hno evs ∧ acceptedOn hno evs ≠ []

def Writing (fs : CatFS Log) (evs : List FileEvent) (path : Str) : Prop := ∃ hno, WritingTo fs evs path hno

/-- The size up to which the handle wrote that set the size of the dentry at `a` last. -/
def LastSize (evs : List FileEvent) (last : Addr → HandleID → Prop) (a : Addr) (n : Nat) : Prop :=
  ∃ hno, last a hno ∧ n = (acceptedOn hno evs).length

/-- The handles stay those of their files. -/
def SameFiles (fs fs' : CatFS Log) : Prop := ∀ hno file, fs.openFiles hno = some file →
  ∃ file', fs'.openFiles hno = some file' ∧ file'.ino = file.ino ∧ file'.rtfile.path = file.rtfile.path

theorem SameFiles.refl : SameFiles fs fs := fun _ file hf => ⟨file, hf, rfl, rfl⟩

theorem SameFiles.setFile {file file' : OpenFile} (hf : fs.openFiles hno = some file) (hino : file'.ino = file.ino)
    (hpath : file'.rtfile.path = file.rtfile.path) : SameFiles fs (fs.setFile hno file') := by
  intro hno₁ file₁ hf₁
  by_cases hne : hno₁ = hno
  · subst hne
    obtain rfl := Option.some.inj (hf.symm.trans hf₁)
    exact ⟨file', setFile_self, hino, hpath⟩
  · exact ⟨file₁, (Function.update_of_ne hne _ _).trans hf₁, rfl, rfl⟩

theorem HandleOf.later (h : HandleOf fs hno a) (hs : SameFiles fs fs') (hg : Grow fs.world.cache fs'.world.cache) :
    HandleOf fs' hno a := by
  obtain ⟨file, hf, ha⟩ := h
  obtain ⟨file', hf', hino, -⟩ := hs hno file hf
  exact ⟨file', hf', hino ▸ hg.index _ _ ha⟩

theorem WritingTo.later (h : WritingTo fs evs path hno) (hs : SameFiles fs fs') (hrel : ¬ e.Releases hno) :
    WritingTo fs' (evs ++ [e]) path hno := by
  obtain ⟨file, hf, hpath, hlive, hne⟩ := h
  obtain ⟨file', hf', -, hpath'⟩ := hs hno file hf
  refine ⟨file', hf', hpath'.trans hpath, ?_, ?_⟩
  · rw [released_append]
    exact not_or.mpr ⟨hlive, hrel⟩
  · rw [acceptedOn_append]
    exact fun h => hne (List.append_eq_nil_iff.mp h).1

/-- A request that accepts nothing holds no other size. -/
theorem lastSize_append {n : Nat} (hacc : ∀ hno, acceptedOn hno [e] = []) (h : LastSize (evs ++ [e]) last a n) : LastSize evs last a n := by
  obtain ⟨hno, hlast, rfl⟩ := h
  refine ⟨hno, hlast, ?_⟩
  rw [acceptedOn_append, hacc, List.append_nil]

/-! ### Requests and what they set -/

/-- What keeps the sizes: a handle gets no request after its release, writes are below 2 GiB, an empty first write finds an
    empty object or a handle with data for the file, and a release of data comes while another handle has
    data for the file or finds that this handle set its size last. -/
def FileReq.Timely (fs : CatFS Log) (evs : List FileEvent) (last : Addr → HandleID → Prop) : FileReq → Prop
  | .openfile _ _ => True
  | .writefile hno off data => ¬ Released hno evs ∧ data.length < 2 ^ 31 ∧ (off = 0 → acceptedOn hno evs ++ data = [] →
      ∀ file body, fs.openFiles hno = some file → fs.world.stor.bucket file.rtfile.path = some body →
        body = [] ∨ Writing fs evs file.rtfile.path)
  | .releaseFile hno => ¬ Released hno evs ∧ ∀ file, fs.openFiles hno = some file → acceptedOn hno evs ≠ [] →
      (∃ hno' ≠ hno, WritingTo fs evs file.rtfile.path hno') ∨ ∀ a, FileAt fs.world.cache file.rtfile.path a → last a hno

/-- Whose write set the size of a dentry last: an accepted write sets that of its file. -/
def FileReq.setters (st : Stor Log) (fs : CatFS Log) (last : Addr → HandleID → Prop) (r : FileReq) (a : Addr)
    (h : HandleID) : Prop :=
  match r with
  | .writefile hno _ _ =>
    if (r.event st fs).ok then h = hno ∧ HandleOf fs hno a ∨ last a h ∧ ¬ HandleOf fs hno a else last a h
  | _ => last a h

/-- The runs of a new mount, the only writer of the bucket, with the requests made on handles and the handles whose writes set
    sizes last. Between two requests the clock moves in any way. -/
inductive SizesRun (c : S3Client Log) (P : Policy) (opt : MetaOpt) :
    CatFS Log → List FileEvent → (Addr → HandleID → Prop) → Prop where
  | start (start : Timespec) (log : Log) (hlog : Issued P log) (now : Timespec) (garbage : Garbage) :
      SizesRun c P opt (.start opt start log now garbage) [] fun _ _ => False
  | request {fs : CatFS Log} {evs : List FileEvent} {last : Addr → HandleID → Prop} (h : SizesRun c P opt fs evs last) (fuel : Nat)
      (r : Request) (hr : r.Steady c fs.world) :
      SizesRun c P opt { fs with world := endState ((r.prog opt (s3Stor c) fuel).run fs.world) } evs
        fun a hno => last a hno ∧ ¬ r.Resizes fs.world a
  | file {fs : CatFS Log} {evs : List FileEvent} {last : Addr → HandleID → Prop} (h : SizesRun c P opt fs evs last) (r : FileReq)
      (hr : r.Timely fs evs last) :
      SizesRun c P opt (endState (r.exec (s3Stor c) fs)) (evs ++ [r.event (s3Stor c) fs]) (r.setters (s3Stor c) fs last)
  | elapse {fs : CatFS Log} {evs : List FileEvent} {last : Addr → HandleID → Prop} (h : SizesRun c P opt fs evs last)
      (now : Timespec) (garbage : Garbage) : SizesRun c P opt { fs with world := { fs.world with now, garbage } } evs last

/-! ### The invariant -/

structure SizesInv (P : Policy) (fs : CatFS Log) (evs : List FileEvent) (last : Addr → HandleID → Prop) : Prop where
  handles : Handles P fs evs
  named : ∀ hno file a, fs.openFiles hno = some file → fs.world.cache.lookup file.ino = some a →
    fs.world.cache.fullPath a = some file.rtfile.path
  setters : ∀ a hno, last a hno → HandleOf fs hno a
  files : FilesHold (Backed fs.world.stor.bucket (LastSize evs last) (Writing fs evs)) fs.world.cache

theorem SizesInv.start {start now : Timespec} {garbage : Garbage} (hlog : Issued P log) :
    SizesInv P (.start opt start log now garbage) [] fun _ _ => False where
  handles := {
    cache := .new opt start
    issued := hlog
    opened := fun _ _ hf => by cases hf
    live := fun _ _ hf => by cases hf
    apart := fun _ _ _ _ _ hf => by cases hf
    unopened := fun _ _ => ⟨rfl, rfl⟩ }
  named _ _ _ hf := by cases hf
  setters _ _ h := h.elim
  files path a ha := by
    obtain rfl := Nat.lt_one_iff.mp (ha.attached.allocated (Inv.new opt start))
    have hdir : ((LocalMemMeta.new opt start).heap 0).isDir = true :=
      show ((S_IFDIR ||| 0o766#32) &&& S_IFDIR != 0) = true by decide
    cases hdir.symm.trans ha.file

/-- The world changed, and the calls that were added send no part. -/
theorem Handles.aside (h : Handles P fs evs) {w : World Log} (hinv : w.cache.Inv) (hgrow : Grow fs.world.cache w.cache)
    (hstor : w.stor = fs.world.stor ++ new) (hnew : ∀ e ∈ new, ∀ id, ¬ e.1.PartOf id) :
    Handles P { fs with world := w } evs where
  cache := hinv
  issued := by
    show Issued P w.stor
    rw [hstor]
    exact h.issued.append fun e he id hid => absurd hid (hnew e he id)
  opened hno file hf := by
    obtain ⟨hlt, a, ha⟩ := h.opened hno file hf
    exact ⟨hlt, a, hgrow.index _ _ ha⟩
  live hno file hf hlive := by
    show Live P w.stor file _ _
    rw [hstor]
    exact (h.live hno file hf hlive).frame fun _ e he => hnew e he _
  apart := h.apart
  unopened := h.unopened

theorem Backed.mono {b b' : Bucket} {held held' : Addr → Nat → Prop} {writing writing' : Str → Prop} {size : Nat}
    (h : Backed b held writing path a size) (hb : b' path = b path) (hheld : ∀ n, held' a n → held a n)
    (hwriting : writing path → writing' path) : Backed b' held' writing' path a size where
  object := by
    rw [Bucket.Holds, hb]
    exact h.object
  held n hn := h.held n (hheld n hn)
  length hnot body hbody := h.length (fun hw => hnot (hwriting hw)) body (hb ▸ hbody)

theorem SizesInv.sized (h : SizesInv P fs evs last) : Sized (LastSize evs last) (Writing fs evs) fs.world.stor fs.world where
  inv := h.handles.cache
  stor := rfl
  known a _ hheld := by
    obtain ⟨hno, hlast, -⟩ := hheld
    obtain ⟨file, -, ha⟩ := h.setters a hno hlast
    exact (h.handles.cache.indexed _ _ ha).1
  files := h.files

theorem SizesInv.request (hc : c.OverLog P) (h : SizesInv P fs evs last) (fuel : Nat) {r : Request} (hr : r.Steady c fs.world) :
    SizesInv P { fs with world := endState ((r.prog opt (s3Stor c) fuel).run fs.world) } evs
      fun a hno => last a hno ∧ ¬ r.Resizes fs.world a := by
  have hsized := h.sized
  have hweaker : ∀ a n, LastSize evs (fun a hno => last a hno ∧ ¬ r.Resizes fs.world a) a n → LastSize evs last a n :=
    fun a n hn => hn.imp fun hno h => ⟨h.1.1, h.2⟩
  have hstart : Sized (LastSize evs fun a hno => last a hno ∧ ¬ r.Resizes fs.world a) (Writing fs evs) fs.world.stor fs.world :=
    ⟨hsized.inv, rfl, fun a n hn => hsized.known a n (hweaker a n hn), hsized.files.mono fun path a _ size hb =>
      hb.mono rfl (hweaker a) id⟩
  have hfree : ∀ d, r.Resizes fs.world d → ∀ k, ¬ LastSize evs (fun a hno => last a hno ∧ ¬ r.Resizes fs.world a) d k := by
    rintro d hd k ⟨hno, hlast, -⟩
    exact hlast.2 hd
  obtain ⟨new, hnew, hs⟩ := request_posted hc hstart fuel hr hfree
  have hgrow := (request_edits opt (s3Stor c) hsized.inv fuel r).grow hsized.inv
  refine ⟨h.handles.aside hs.inv hgrow hs.stor hnew, fun hno file a hf ha => ?_, fun a hno hlast => ?_, ?_⟩
  · obtain ⟨-, a', ha'⟩ := h.handles.opened hno file hf
    obtain rfl : a' = a := Option.some.inj ((hgrow.index _ _ ha').symm.trans ha)
    exact (fullPath_grow hsized.inv hgrow (hsized.inv.indexed _ _ ha').1).trans (h.named hno file a' hf ha')
  · exact (h.setters a hno hlast.1).later .refl hgrow
  · have hfiles := hs.files
    rw [← hs.stor] at hfiles
    exact hfiles

/-! ### Requests on handles -/

/-- A request on a handle that leaves the cache and the bucket as they were and accepts nothing. -/
theorem SizesInv.still (h : SizesInv P fs evs last) (hhandles : Handles P fs' (evs ++ [e])) (hcache : fs'.world.cache = fs.world.cache)
    (hstor : fs'.world.stor.bucket = fs.world.stor.bucket) (hs : SameFiles fs fs')
    (hnamed : ∀ hno file' a, fs'.openFiles hno = some file' → fs'.world.cache.lookup file'.ino = some a →
      fs'.world.cache.fullPath a = some file'.rtfile.path)
    (hacc : ∀ hno, acceptedOn hno [e] = []) (hrel : ∀ hno, ¬ e.Releases hno) : SizesInv P fs' (evs ++ [e]) last := by
  refine ⟨hhandles, hnamed, fun a hno hlast => (h.setters a hno hlast).later hs (hcache ▸ .refl _), ?_⟩
  rw [hcache]
  refine h.files.mono fun path a _ size hb => hb.mono (congrFun hstor path) (fun _ => lastSize_append hacc) fun hw => ?_
  exact hw.imp fun hno hw => hw.later hs (hrel hno)

/-- Names stay when every handle was there before, with the same file. -/
theorem SizesInv.named_of (h : SizesInv P fs evs last) (hgrow : Grow fs.world.cache fs'.world.cache)
    (hback : ∀ hno file', fs'.openFiles hno = some file' → ∃ file, fs.openFiles hno = some file ∧ file'.ino = file.ino ∧
      file'.rtfile.path = file.rtfile.path) (hno : HandleID) (file' : OpenFile) (a : Addr) (hf' : fs'.openFiles hno = some file')
    (ha : fs'.world.cache.lookup file'.ino = some a) : fs'.world.cache.fullPath a = some file'.rtfile.path := by
  obtain ⟨file, hf, hino, hpath⟩ := hback hno file' hf'
  obtain ⟨-, a', ha'⟩ := h.handles.opened hno file hf
  obtain rfl : a' = a := Option.some.inj ((hgrow.index _ _ ha').symm.trans (hino ▸ ha))
  have hinv := h.handles.cache
  rw [hpath]
  exact (fullPath_grow hinv hgrow (hinv.indexed _ _ ha').1).trans (h.named hno file a' hf ha')

theorem setFile_back {file file' : OpenFile} (hf : fs.openFiles hno = some file) (hino : file'.ino = file.ino)
    (hpath : file'.rtfile.path = file.rtfile.path) (hno₁ : HandleID) (file₁ : OpenFile)
    (hf₁ : (fs.setFile hno file').openFiles hno₁ = some file₁) :
    ∃ file, fs.openFiles hno₁ = some file ∧ file₁.ino = file.ino ∧ file₁.rtfile.path = file.rtfile.path := by
  by_cases hne : hno₁ = hno
  · subst hne
    obtain rfl := Option.some.inj (setFile_self.symm.trans hf₁)
    exact ⟨file, hf, hino, hpath⟩
  · exact ⟨file₁, (Function.update_of_ne hne _ _).symm.trans hf₁, rfl, rfl⟩

theorem SizesInv.openfile_step (h : SizesInv P fs evs last) {st : Stor Log} {ino : InodeID} {hasWrote : Bool} :
    SizesInv P (endState ((FileReq.openfile ino hasWrote).exec st fs)) (evs ++ [(FileReq.openfile ino hasWrote).event st fs])
      last := by
  have hhandles : Handles P (endState ((FileReq.openfile ino hasWrote).exec st fs))
      (evs ++ [(FileReq.openfile ino hasWrote).event st fs]) := h.handles.openfile_step
  have hacc : ∀ hno, acceptedOn hno [(FileReq.openfile ino hasWrote).event st fs] = [] := fun hno =>
    acceptedOn_other (fun h => h)
  have hrel : ∀ hno, ¬ ((FileReq.openfile ino hasWrote).event st fs).Releases hno := fun hno h => by cases h.1
  cases ha : fs.world.cache.lookup ino with
  | none =>
    have hend : endState ((FileReq.openfile ino hasWrote).exec st fs) = fs := by
      rw [FileReq.exec_openfile_none ha]
      rfl
    rw [hend] at hhandles ⊢
    exact h.still hhandles rfl rfl .refl h.named hacc hrel
  | some a =>
    obtain ⟨hlt, hino⟩ := h.handles.cache.indexed _ _ ha
    obtain ⟨path, hpath⟩ := LocalMemMeta.fullPath_some h.handles.cache hlt
    have hend : endState ((FileReq.openfile ino hasWrote).exec st fs) = CatFS.setFile
        { fs with nextHandleId := fs.nextHandleId + 1 } fs.nextHandleId
        (.new (fs.world.cache.heap a).inode.ino fs.nextHandleId { path, size := (fs.world.cache.heap a).inode.size } hasWrote) := by
      rw [FileReq.exec, bind_ok (CatFS.run_openfile ha hpath)]
      rfl
    rw [hend] at hhandles ⊢
    have hold : ∀ hno file, fs.openFiles hno = some file → hno ≠ fs.nextHandleId := fun hno file hf =>
      Nat.ne_of_lt (h.handles.opened hno file hf).1
    refine h.still hhandles rfl rfl ?_ ?_ hacc hrel
    · exact fun hno file hf => ⟨file, (Function.update_of_ne (hold hno file hf) _ _).trans hf, rfl, rfl⟩
    · intro hno file' a' hf' ha'
      by_cases hnew : hno = fs.nextHandleId
      · subst hnew
        obtain rfl := Option.some.inj (setFile_self.symm.trans hf')
        obtain rfl : a' = a := Option.some.inj (ha'.symm.trans (hino.symm ▸ ha))
        exact hpath
      · exact h.named hno file' a' ((Function.update_of_ne hnew _ _).symm.trans hf') ha'

theorem handleOf_iff {file : OpenFile} {b : Addr} (hf : fs.openFiles hno = some file) (ha : fs.world.cache.lookup file.ino = some a) :
    HandleOf fs hno b ↔ b = a := by
  constructor
  · rintro ⟨file', hf', hb⟩
    obtain rfl := Option.some.inj (hf.symm.trans hf')
    exact Option.some.inj (hb.symm.trans ha)
  · rintro rfl
    exact ⟨file, hf, ha⟩

theorem Log.bucket_uploads {path id : Str} (h : ∀ c ∈ new, c.1.OfUpload path id) : Log.bucket (log ++ new) = log.bucket := by
  funext key
  rw [bucket, object_uploads h, bucket]

/-- An accepted write sets the size of its file to what was written so far. -/
theorem SizesInv.write (h : SizesInv P fs evs last) {file : OpenFile} {off : Nat} {data : List Byte} {calls log' : Log}
    {w : SequenceWriter} (hf : fs.openFiles hno = some file) (ha : fs.world.cache.lookup file.ino = some a)
    (he : e = ⟨.writefile hno off data, true, calls⟩) (hlive : ¬ Released hno evs)
    (hnone : acceptedOn hno evs ++ data = [] → ∀ body, fs.world.stor.bucket file.rtfile.path = some body →
      body = [] ∨ Writing fs evs file.rtfile.path)
    (hsize : w.nextWriteOffset = (acceptedOn hno evs ++ data).length) (hbucket : log'.bucket = fs.world.stor.bucket)
    (hfs : fs' = ((fs.setFile hno (file.wrote w)).setStor log').setCache
      (fs.world.cache.set a (InodeUpdateAttr.apply (sizeUpdate w.nextWriteOffset)))) (hhandles : Handles P fs' (evs ++ [e])) :
    SizesInv P fs' (evs ++ [e]) fun b h => h = hno ∧ HandleOf fs hno b ∨ last b h ∧ ¬ HandleOf fs hno b := by
  have hinv := h.handles.cache
  have hgrow : Grow fs.world.cache fs'.world.cache := by
    rw [hfs]
    exact .set Mild.apply
  have hino : (file.wrote w).ino = file.ino := OpenFile.wrote_ino
  have hpath : (file.wrote w).rtfile.path = file.rtfile.path := rfl
  have hfiles : SameFiles fs fs' := by
    rw [hfs]
    exact SameFiles.setFile hf hino hpath
  have hrel : ∀ hno', ¬ e.Releases hno' := fun hno' hr => by
    rw [he] at hr
    cases hr.1
  have hown : acceptedOn hno (evs ++ [e]) = acceptedOn hno evs ++ data := by
    rw [acceptedOn_append, he]
    simp [acceptedOn]
  have hother : ∀ hno', hno' ≠ hno → acceptedOn hno' (evs ++ [e]) = acceptedOn hno' evs := fun hno' hne => by
    have hoff : ¬ e.req.On hno' := by
      rw [he]
      exact fun h => hne h.symm
    rw [acceptedOn_append, acceptedOn_other hoff, List.append_nil]
  refine ⟨hhandles, h.named_of hgrow ?_, fun b k hlast => ?_, ?_⟩
  · rw [hfs]
    exact setFile_back hf hino hpath
  · rcases hlast with ⟨rfl, hb⟩ | ⟨hlast, -⟩
    · exact hb.later hfiles hgrow
    · exact (h.setters b k hlast).later hfiles hgrow
  · have hset : FilesHold (Backed log'.bucket (LastSize (evs ++ [e]) fun b h => h = hno ∧ HandleOf fs hno b ∨ last b h ∧
        ¬ HandleOf fs hno b) (Writing fs' (evs ++ [e])))
        (fs.world.cache.set a (InodeUpdateAttr.apply (sizeUpdate w.nextWriteOffset))) := by
      refine filesHold_set hinv Mild.apply (fun _ => rfl) rfl (fun path hfile => ?_) fun path b hne hfile => ?_
      · -- The write set the size of the file, which is being written from now on unless the handle has no data.
        obtain rfl : file.rtfile.path = path := Option.some.inj ((h.named hno file a hf ha).symm.trans hfile.path)
        have hwriting : acceptedOn hno evs ++ data ≠ [] → Writing fs' (evs ++ [e]) file.rtfile.path := by
          intro hne
          obtain ⟨file', hf', -, hp⟩ := hfiles hno file hf
          refine ⟨hno, file', hf', hp, ?_, hown ▸ hne⟩
          rw [released_append]
          exact not_or.mpr ⟨hlive, hrel hno⟩
        refine ⟨hbucket ▸ (h.files _ a hfile).object, ?_, fun hnot body hbody => ?_⟩
        rotate_left
        · have hempty : acceptedOn hno evs ++ data = [] := Classical.byContradiction fun hne => hnot (hwriting hne)
          rw [hbucket] at hbody
          rcases hnone hempty body hbody with rfl | hw
          · exact hsize.trans (congrArg List.length hempty)
          · exact absurd (hw.imp fun k hw => hw.later hfiles (hrel k)) hnot
        rintro n ⟨k, ⟨rfl, -⟩ | ⟨-, hnot⟩, rfl⟩
        · rw [hown]
          exact hsize
        · exact absurd ((handleOf_iff hf ha).mpr rfl) hnot
      · refine (h.files path b hfile).mono (congrFun hbucket path) ?_ fun hw => hw.imp fun k hw => hw.later hfiles (hrel k)
        rintro n ⟨k, ⟨rfl, hb⟩ | ⟨hlast, hnot⟩, rfl⟩
        · exact absurd ((handleOf_iff hf ha).mp hb) hne
        · refine ⟨k, hlast, ?_⟩
          rw [hother k]
          rintro rfl
          exact hnot (h.setters b k hlast)
    rw [hfs] at hset ⊢
    exact hset

/-- The object of the handle is what it delivered. -/
theorem Delivered.bucket_own {w : SequenceWriter} {acc : List Byte} {log' : Log} (h : Delivered w log acc log')
    (hpath : w.filePath ≠ []) (hne : acc ≠ []) : log'.bucket w.filePath = some acc := by
  rw [Log.bucket, if_neg hpath]
  exact h.object hne

/-- The other objects stay, and all do when nothing was delivered. -/
theorem Delivered.bucket_other {w : SequenceWriter} {acc : List Byte} {log' : Log} (h : Delivered w log acc log')
    (hother : ¬ (w.filePath = path ∧ acc ≠ [])) : log'.bucket path = log.bucket path := by
  have hobject : log'.object path = log.object path := by
    by_cases hp : w.filePath = path
    · rw [h.same (Classical.byContradiction fun hne => hother ⟨hp, hne⟩)]
    · exact h.object_other hp
  rw [Log.bucket, hobject, Log.bucket]

/-- A release of data comes while another handle is writing the file, or finds the size of the data. -/
theorem SizesInv.release (h : SizesInv P fs evs last) {file file' : OpenFile} {log' : Log} (hf : fs.openFiles hno = some file)
    (hreq : e.req = .releaseFile hno) (hino : file'.ino = file.ino) (hpath : file'.rtfile.path = file.rtfile.path)
    (hwriter : file.writer.filePath = file.rtfile.path) (hd : Delivered file.writer fs.world.stor (acceptedOn hno evs) log')
    (hlast : acceptedOn hno evs ≠ [] → (∃ hno' ≠ hno, WritingTo fs evs file.rtfile.path hno') ∨
      ∀ a, FileAt fs.world.cache file.rtfile.path a → last a hno)
    (hfs : fs' = (fs.setFile hno file').setStor log') (hhandles : Handles P fs' (evs ++ [e])) : SizesInv P fs' (evs ++ [e]) last := by
  have hacc : ∀ hno', acceptedOn hno' [e] = [] := fun hno' => by simp [acceptedOn, hreq]
  have hfiles : SameFiles fs fs' := by
    rw [hfs]
    exact SameFiles.setFile hf hino hpath
  have hothers : ∀ path hno', hno' ≠ hno → WritingTo fs evs path hno' → Writing fs' (evs ++ [e]) path := fun path hno' hne hw =>
    ⟨hno', hw.later hfiles fun hrel => hne (FileReq.releaseFile.inj (hreq.symm.trans hrel.1)).symm⟩
  have hbacked : FilesHold (Backed log'.bucket (LastSize (evs ++ [e]) last) (Writing fs' (evs ++ [e]))) fs.world.cache := by
    intro path b hfile
    have hback := h.files path b hfile
    by_cases hown : file.writer.filePath = path ∧ acceptedOn hno evs ≠ []
    · -- The object is now what the handle wrote.
      obtain ⟨rfl, hne⟩ := hown
      have hbody := hd.bucket_own (Log.holds_ne_nil hback.object) hne
      refine ⟨by rw [Bucket.Holds, hbody]; rfl, fun n hn => hback.held n (lastSize_append hacc hn), fun hnot body hbody' => ?_⟩
      obtain rfl := Option.some.inj (hbody.symm.trans hbody')
      rw [hwriter] at hback hfile hnot
      rcases hlast hne with ⟨hno', hne', hw⟩ | hset
      · exact absurd (hothers _ hno' hne' hw) hnot
      · exact hback.held _ ⟨hno, hset b hfile, rfl⟩
    · refine hback.mono (hd.bucket_other hown) (fun _ => lastSize_append hacc) ?_
      rintro ⟨k, hw⟩
      refine hothers path k ?_ hw
      rintro rfl
      obtain ⟨file₁, hf₁, hp, -, hne⟩ := hw
      obtain rfl := Option.some.inj (hf.symm.trans hf₁)
      exact hown ⟨hwriter.trans hp, hne⟩
  rw [hfs] at hfiles hhandles hbacked ⊢
  refine ⟨hhandles, h.named_of (.refl _) (setFile_back hf hino hpath), fun b k hk => ?_, hbacked⟩
  exact (h.setters b k hk).later hfiles (.refl _)

section
variable {st : Stor Log} (hst : st.toUploadStor = P.stor) (hok : ∀ n, P.fails n = false)
include hst hok

theorem SizesInv.writefile_step (h : SizesInv P fs evs last) {off : Nat} {data : List Byte} (hlive : ¬ Released hno evs)
    (hshort : data.length < 2 ^ 31) (hnone : off = 0 → acceptedOn hno evs ++ data = [] → ∀ file body,
      fs.openFiles hno = some file → fs.world.stor.bucket file.rtfile.path = some body →
        body = [] ∨ Writing fs evs file.rtfile.path) :
    SizesInv P (endState ((FileReq.writefile hno off data).exec st fs)) (evs ++ [(FileReq.writefile hno off data).event st fs])
      ((FileReq.writefile hno off data).setters st fs last) := by
  have hhandles : Handles P (endState ((FileReq.writefile hno off data).exec st fs))
      (evs ++ [(FileReq.writefile hno off data).event st fs]) := (h.handles.writefile_step hst hok hshort hlive).1
  have hrel : ∀ hno', ¬ ((FileReq.writefile hno off data).event st fs).Releases hno' := fun hno' h => by cases h.1
  -- A write that threw accepted nothing, and set no size.
  have hthrew : ((FileReq.writefile hno off data).event st fs).ok = false →
      (FileReq.writefile hno off data).setters st fs last = last ∧
        ∀ hno', acceptedOn hno' [(FileReq.writefile hno off data).event st fs] = [] := by
    intro hev
    refine ⟨?_, fun hno' => ?_⟩
    · funext b k
      simp [FileReq.setters, hev]
    · have hreq : ((FileReq.writefile hno off data).event st fs).req = .writefile hno off data := rfl
      simp [acceptedOn, hreq, hev]
  cases hf : fs.openFiles hno with
  | none =>
    have hexec : (FileReq.writefile hno off data).exec st fs = _ := FileReq.exec_writefile_none hf
    have hend : endState ((FileReq.writefile hno off data).exec st fs) = fs := by rw [hexec]; rfl
    obtain ⟨hsame, hacc⟩ := hthrew (by rw [FileReq.event, hexec]; rfl)
    rw [hend] at hhandles ⊢
    rw [hsame]
    exact h.still hhandles rfl rfl .refl h.named hacc hrel
  | some file =>
    obtain ⟨-, a, ha⟩ := h.handles.opened hno file hf
    rcases (h.handles.live hno file hf hlive).write_cases hst hok h.handles.issued hshort with
      ⟨hoff, n, w, log', hrun, -, hsize, hsends, -⟩ | ⟨-, e, hrun⟩
    · have hexec := FileReq.exec_writefile_ok (CatFS.writefile_ok hf ha hrun)
      have hev := FileReq.event_ok hexec
      have htaken : ((FileReq.writefile hno off data).event st fs).ok = true := by rw [hev]
      have hset : (FileReq.writefile hno off data).setters st fs last =
          fun b k => k = hno ∧ HandleOf fs hno b ∨ last b k ∧ ¬ HandleOf fs hno b := by
        funext b k
        simp [FileReq.setters, htaken]
      obtain ⟨new, rfl, hnew, -⟩ := hsends.grows
      have hempty : acceptedOn hno evs ++ data = [] → ∀ body, fs.world.stor.bucket file.rtfile.path = some body →
          body = [] ∨ Writing fs evs file.rtfile.path := fun hnil body =>
        hnone (by rw [hoff, (List.append_eq_nil_iff.mp hnil).1, List.length_nil]) hnil file body hf
      rw [hset]
      exact h.write hf ha hev hlive hempty hsize (Log.bucket_uploads fun c hc => (hnew c hc).1) (by rw [hexec]; rfl) hhandles
    · have hexec := FileReq.exec_writefile_error (CatFS.writefile_error hf hrun)
      obtain ⟨hsame, hacc⟩ := hthrew (by rw [FileReq.event, hexec]; rfl)
      have hend : endState ((FileReq.writefile hno off data).exec st fs) =
          (fs.setFile hno { file.beginWrite with writer := file.writer }).setStor fs.world.stor := by rw [hexec]; rfl
      have hino : file.beginWrite.ino = file.ino := OpenFile.beginWrite_ino
      have hpath : file.beginWrite.rtfile.path = file.rtfile.path := by rw [OpenFile.beginWrite_rtfile]
      rw [hend] at hhandles ⊢
      rw [hsame]
      exact h.still hhandles rfl rfl (SameFiles.setFile hf hino hpath)
        (h.named_of (.refl _) (setFile_back hf hino hpath)) hacc hrel

theorem SizesInv.releaseFile_step (h : SizesInv P fs evs last) (hr : (FileReq.releaseFile hno).Timely fs evs last) :
    SizesInv P (endState ((FileReq.releaseFile hno).exec st fs)) (evs ++ [(FileReq.releaseFile hno).event st fs]) last := by
  obtain ⟨hlive, hlast⟩ := hr
  obtain ⟨hhandles, -⟩ := h.handles.releaseFile_step hst hok hlive
  cases hf : fs.openFiles hno with
  | none =>
    have hexec : (FileReq.releaseFile hno).exec st fs = _ := FileReq.exec_releaseFile_none hf
    have hend : endState ((FileReq.releaseFile hno).exec st fs) = fs := by rw [hexec]; rfl
    have hrel : ∀ hno', ¬ ((FileReq.releaseFile hno).event st fs).Releases hno' := fun hno' h => by
      have hret := h.2
      rw [FileReq.event, hexec] at hret
      cases hret
    rw [hend] at hhandles ⊢
    exact h.still hhandles rfl rfl .refl h.named (fun _ => by simp [acceptedOn, FileReq.event]) hrel
  | some file =>
    have hwas := h.handles.live hno file hf hlive
    rcases release_outcome hwas.staged hwas.offset with ⟨w', log', hrun, hd, -⟩ | ⟨-, -, -, -, hrefused, -⟩
    · rw [← hst] at hrun
      have hexec : (FileReq.releaseFile hno).exec st fs = .ok () _ := CatFS.releaseFile_ok hf hrun
      have hend : endState ((FileReq.releaseFile hno).exec st fs) =
          (fs.setFile hno { file with writer := w', isWriting := false }).setStor log' := by rw [hexec]; rfl
      refine h.release hf rfl ?_ ?_ hwas.path hd (hlast file hf) hend hhandles
      all_goals rfl
    · exact absurd (fun _ _ => hok _) hrefused

/-- The step lemma of the requests on handles. -/
theorem SizesInv.step (h : SizesInv P fs evs last) (r : FileReq) (hr : r.Timely fs evs last) :
    SizesInv P (endState (r.exec st fs)) (evs ++ [r.event st fs]) (r.setters st fs last) := by
  cases r with
  | openfile ino hasWrote => exact h.openfile_step
  | writefile hno off data => exact h.writefile_step hst hok hr.1 hr.2.1 hr.2.2
  | releaseFile hno => exact h.releaseFile_step hst hok hr

end

/-- The run lemma. -/
theorem SizesRun.inv (hc : c.OverLog P) (h : SizesRun c P opt fs evs last) : SizesInv P fs evs last := by
  induction h with
  | start start log hlog now garbage => exact .start hlog
  | request _ fuel r hr ih => exact ih.request hc fuel hr
  | file _ r hr ih => exact ih.step hc.upload hc.accepts r hr
  | @elapse fs evs last _ now garbage ih =>
    have hnew : ∀ e ∈ ([] : Log), ∀ id, ¬ e.1.PartOf id := fun e he => by cases he
    exact ⟨ih.handles.aside ih.handles.cache (.refl _) (List.append_nil _).symm hnew, ih.named, ih.setters, ih.files⟩

/-! ### Closed files -/

/-- No handle for the path is open any more. -/
def Closed (fs : CatFS Log) (evs : List FileEvent) (path : Str) : Prop :=
  ∀ hno file, fs.openFiles hno = some file → file.rtfile.path = path → Released hno evs

/-- A read of a whole object through a handle that knows its length. -/
theorem OpenFile.read_whole (hc : c.OverLog P) {file : OpenFile} {body : List Byte} {size : Nat}
    (hbody : fs.world.stor.bucket file.rtfile.path = some body) (hsize : file.rtfile.size = body.length) (hle : body.length ≤ size)
    (hlt : size < 2 ^ 64) : file.read (s3Stor c) 0 size fs = .ok body fs := by
  have hend : u64 (((0 : Nat) : Int) + size) = size := by
    rw [u64]
    omega
  have hrest : u64 ((body.length : Int) - (0 : Nat)) = body.length := by
    rw [u64]
    omega
  have hall : (if body.length < size then body.length else size) = body.length := by
    by_cases hshort : body.length < size
    · rw [if_pos hshort]
    · rw [if_neg hshort]
      exact Nat.le_antisymm (Nat.le_of_not_lt hshort) hle
  rw [OpenFile.read]
  simp only [hsize, hend, hrest, hall]
  cases body with
  | nil => rfl
  | cons b rest =>
    have htake : (b :: rest).take (b :: rest).length = b :: rest := List.take_length
    have hget : c.getObject file.rtfile.path 0 (0 + (b :: rest).length - 1) fs.world.stor = .ok (b :: rest) fs.world.stor := by
      have hindex : 0 + (b :: rest).length - 1 = rest.length := by rw [Nat.zero_add, List.length_cons, Nat.add_sub_cancel]
      rw [hindex, hc.get _ _ _ _ hbody (Nat.lt_succ_self _)]
      exact congrArg (Result.ok · fs.world.stor) htake
    have hread : (s3Stor c).readFile { objKey := file.rtfile.path, off := 0, size := (b :: rest).length } fs.world.stor =
        .ok { dst := b :: rest, bytes := (b :: rest).length } fs.world.stor := by
      have hreq : orServerError (c.getObject file.rtfile.path 0 (0 + (b :: rest).length - 1)) fs.world.stor =
          .ok (b :: rest) fs.world.stor := by rw [orServerError, hget]
      have hend : 0 + (b :: rest).length ≤ 2 ^ 64 := by
        rw [Nat.zero_add]
        exact Nat.le_of_lt (Nat.lt_of_le_of_lt hle hlt)
      simp only [s3Stor]
      rw [lastByte_eq (show (b :: rest).length ≠ 0 from Nat.succ_ne_zero _) hend, bind_ok hreq]
      rfl
    have hzoom : zoom (fun fs : CatFS Log => fs.world.stor) (fun t fs => fs.setStor t)
        ((s3Stor c).readFile { objKey := file.rtfile.path, off := 0, size := (b :: rest).length }) fs =
        .ok { dst := b :: rest, bytes := (b :: rest).length } fs := by
      rw [zoom, hread]
      rfl
    have hlong : ¬ (b :: rest).length ≤ 0 := Nat.not_succ_le_zero _
    have hsome : (b :: rest).length ≠ 0 := Nat.succ_ne_zero _
    rw [if_neg hlong, if_neg hsome, bind_ok hzoom, htake]
    rfl

/-- A file that no handle is writing has the size of its object, and is read as a whole. -/
theorem closed_size (hc : c.OverLog P) (h : SizesRun c P opt fs evs last) (hfile : FileAt fs.world.cache path a)
    (hclosed : Closed fs evs path) : ∃ body, fs.world.stor.bucket path = some body ∧
      (fs.world.cache.heap a).inode.size = body.length ∧ ∀ hasWrote size, body.length ≤ size → size < 2 ^ 64 →
        ∃ hno fs₁, openfile (fs.world.cache.heap a).inode.ino hasWrote fs = .ok hno fs₁ ∧
          readfile (s3Stor c) hno 0 size fs₁ = .ok body fs₁ := by
  have hinv := h.inv hc
  have hback := hinv.files path a hfile
  obtain ⟨body, hbody⟩ := Option.isSome_iff_exists.mp hback.object
  have hnot : ¬ Writing fs evs path := by
    rintro ⟨hno, file, hf, hpath, hlive, -⟩
    exact hlive (hclosed hno file hf hpath)
  have hsize := hback.length hnot body hbody
  refine ⟨body, hbody, hsize, fun hasWrote size hle hlt => ?_⟩
  have ha := hinv.handles.cache.index a (hfile.attached.allocated hinv.handles.cache)
  refine ⟨_, _, run_openfile ha hfile.path, ?_⟩
  rw [readfile, bind_ok (run_openFile setFile_self)]
  exact OpenFile.read_whole hc hbody hsize hle hlt

theorem Log.client_overLog : Log.client.OverLog (Policy.s3 fun _ => false) where
  serves := Log.client_serves
  head log key := by
    simp only [Log.client]
    cases log.bucket key <;> rfl
  list _ _ := rfl
  get log key body last hbody _ := by simp only [Log.client, hbody, List.drop_zero, Nat.sub_zero]
  upload := Log.client_upload
  accepts _ := rfl

/-- A mount over an empty bucket after the creation of the file `f`. -/
def madeFile : CatFS Log :=
  { CatFS.start ⟨0, 0, 60⟩ ⟨0, 0⟩ ([] : Log) ⟨0, 0⟩ noGarbage with
    world := endState (((Request.create ROOT_INODE_ID ['f'] S_IFREG).prog ⟨0, 0, 60⟩ (s3Stor Log.client) 1).run (newWorld [])) }

/-- The file is opened, and five bytes are written to it. -/
def writeFive : List FileReq := [.openfile 2 false, .writefile 0 0 [1, 2, 3, 4, 5]]

def fiveBytes : CatFS Log := runFiles (s3Stor Log.client) madeFile writeFive

theorem sizesRun_madeFile : ∃ last, SizesRun Log.client (Policy.s3 fun _ => false) ⟨0, 0, 60⟩ madeFile [] last := by
  have hstart : SizesRun Log.client (Policy.s3 fun _ => false) ⟨0, 0, 60⟩
      (.start ⟨0, 0, 60⟩ ⟨0, 0⟩ [] ⟨0, 0⟩ noGarbage) [] _ :=
    .start ⟨0, 0⟩ [] (fun _ _ _ _ _ h => by cases h) ⟨0, 0⟩ noGarbage
  have hroot : InDirectory ROOT_INODE_ID newCache := by
    intro p hp
    obtain rfl : p = 0 := Option.some.inj (hp.symm.trans (by decide))
    decide
  exact ⟨_, hstart.request 1 (.create ROOT_INODE_ID ['f'] S_IFREG) ⟨hroot, by decide⟩⟩

/-- The write set the size of the file. -/
theorem sizesRun_fiveBytes : ∃ last, SizesRun Log.client (Policy.s3 fun _ => false) ⟨0, 0, 60⟩ fiveBytes
    (history (s3Stor Log.client) madeFile writeFive) last ∧ last 1 0 := by
  obtain ⟨last, hmade⟩ := sizesRun_madeFile
  have hopen := hmade.file (.openfile 2 false) trivial
  have hlive : ¬ Released 0 ([] ++ [(FileReq.openfile 2 false).event (s3Stor Log.client) madeFile]) := by
    simp [Released, FileEvent.Releases, FileReq.event]
  refine ⟨_, hopen.file (.writefile 0 0 [1, 2, 3, 4, 5]) ⟨hlive, by decide, fun _ hempty => ?_⟩, ?_⟩
  · cases (List.append_eq_nil_iff.mp hempty).2
  have hhandle : HandleOf (endState ((FileReq.openfile 2 false).exec (s3Stor Log.client) madeFile)) 0 1 := by
    have hfound : (((endState ((FileReq.openfile 2 false).exec (s3Stor Log.client) madeFile)).openFiles 0).bind fun file =>
      (endState ((FileReq.openfile 2 false).exec (s3Stor Log.client) madeFile)).world.cache.lookup file.ino) = some 1 := by
      decide +kernel
    exact Option.bind_eq_some_iff.mp hfound
  have htaken : ((FileReq.writefile 0 0 [1, 2, 3, 4, 5]).event (s3Stor Log.client)
      (endState ((FileReq.openfile 2 false).exec (s3Stor Log.client) madeFile))).ok = true := by decide +kernel
  simp only [FileReq.setters, htaken, if_true]
  exact .inl ⟨trivial, hhandle⟩

theorem closed_size_five : ∃ fs evs last, SizesRun Log.client (Policy.s3 fun _ => false) ⟨0, 0, 60⟩ fs evs last ∧
    FileAt fs.world.cache ['f'] 1 ∧ Closed fs evs ['f'] ∧ acceptedOn 0 evs = [1, 2, 3, 4, 5] ∧
    ∃ body, fs.world.stor.bucket ['f'] = some body ∧ (fs.world.cache.heap 1).inode.size = body.length ∧
      ∀ hasWrote size, body.length ≤ size → size < 2 ^ 64 → ∃ hno fs₁,
        openfile (fs.world.cache.heap 1).inode.ino hasWrote fs = .ok hno fs₁ ∧
        readfile (s3Stor Log.client) hno 0 size fs₁ = .ok body fs₁ := by
  obtain ⟨last, hfive, hlast⟩ := sizesRun_fiveBytes
  have hinv := hfive.inv Log.client_overLog
  have honly : ∀ path a, FileAt fiveBytes.world.cache path a → a = 1 := by
    intro path a hfile
    have hnext : fiveBytes.world.cache.heapNext = 2 := by decide +kernel
    have hroot : (fiveBytes.world.cache.heap 0).isDir = true := by decide +kernel
    have hlt : a < 2 := hnext ▸ hfile.attached.allocated hinv.handles.cache
    have hne : a ≠ 0 := by
      rintro rfl
      cases hroot.symm.trans hfile.file
    exact Nat.le_antisymm (Nat.le_of_lt_succ hlt) (Nat.pos_of_ne_zero hne)
  have hlive : ¬ Released 0 (history (s3Stor Log.client) madeFile writeFive) := by
    simp [Released, FileEvent.Releases, FileReq.event, history, writeFive]
  have hrun := hfive.file (.releaseFile 0) ⟨hlive, fun file hf _ => .inr fun a ha => honly _ a ha ▸ hlast⟩
  have hclosed : Closed (endState ((FileReq.releaseFile 0).exec (s3Stor Log.client) fiveBytes))
      (history (s3Stor Log.client) madeFile writeFive ++ [(FileReq.releaseFile 0).event (s3Stor Log.client) fiveBytes]) ['f'] := by
    intro hno file hf _
    have hlt := ((hrun.inv Log.client_overLog).handles.opened hno file hf).1
    have hnext : (endState ((FileReq.releaseFile 0).exec (s3Stor Log.client) fiveBytes)).nextHandleId = 1 := by decide +kernel
    obtain rfl : hno = 0 := Nat.lt_one_iff.mp (hnext ▸ hlt)
    refine released_append.mpr (.inr ⟨rfl, ?_⟩)
    decide +kernel
  have hfile : FileAt (endState ((FileReq.releaseFile 0).exec (s3Stor Log.client) fiveBytes)).world.cache ['f'] 1 :=
    ⟨.child .root (n := ['f']) (by decide +kernel), by decide +kernel, by decide +kernel⟩
  exact ⟨_, _, _, hrun, hfile, hclosed, by decide +kernel, closed_size Log.client_overLog hrun hfile hclosed⟩

/-- The clock moved past the time to live of the dentry, and the file was looked up. -/
def lookedUp : CatFS Log :=
  { fiveBytes with world := endState (((Request.find ROOT_INODE_ID ['f']).prog ⟨0, 0, 60⟩ (s3Stor Log.client) 1).run
    { fiveBytes.world with now := ⟨100, 0⟩ }) }

/-- The lookup sets the size to that of the object without data, and the release does not set it again. -/
theorem size_lost : acceptedOn 0 (history (s3Stor Log.client) madeFile writeFive) = [1, 2, 3, 4, 5] ∧
    ((FileReq.releaseFile 0).event (s3Stor Log.client) lookedUp).Releases 0 ∧
    (endState ((FileReq.releaseFile 0).exec (s3Stor Log.client) lookedUp)).nextHandleId = 1 ∧
    FileAt (endState ((FileReq.releaseFile 0).exec (s3Stor Log.client) lookedUp)).world.cache ['f'] 1 ∧
    (endState ((FileReq.releaseFile 0).exec (s3Stor Log.client) lookedUp)).world.stor.bucket ['f'] = some [1, 2, 3, 4, 5] ∧
    ((endState ((FileReq.releaseFile 0).exec (s3Stor Log.client) lookedUp)).world.cache.heap 1).inode.size = 0 := by
  refine ⟨by decide +kernel, ⟨rfl, by decide +kernel⟩, by decide +kernel, ⟨.child .root (n := ['f']) ?_, ?_, ?_⟩, ?_, ?_⟩
  all_goals decide +kernel

end Catfs
