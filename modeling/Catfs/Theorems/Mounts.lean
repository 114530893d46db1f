import Catfs.Theorems.BucketFrame
import Catfs.Theorems.WriterKeys

/-! # Mounts of one bucket

Any number of mounts share a bucket, each with its own cache, clock and open files. The last request that changed an
object, of whichever mount, made it what it is. -/

namespace Catfs

open Lib MetaM LocalMemMeta WriterM SequenceWriter MetaImpl
open EStateM (Result)
open Relation

section
variable {σ ι : Type} {c : S3Client σ} {view : σ → Bucket} {opt : MetaOpt} {fs : CatFS σ} {w : SequenceWriter} {t : σ}
  {key : Str} {v : Option (List Byte)} {hno : HandleID}

/-! ### One request -/

/-- What a release may leave as the object when the store is `t`: the data that the writer staged, or, when it began a
    multipart upload, what the service makes of that upload after the last part that was staged has been sent. -/
def SequenceWriter.Leaves (c : S3Client σ) (view : σ → Bucket) (w : SequenceWriter) (t : σ) (body : List Byte) : Prop :=
  w.nextWriteOffset ≠ 0 ∧ match w.uptype with
    | .PUT => ∃ p, w.putPart = some p ∧ body = p.buf.take p.len
    | .MPUT => ∃ w' t', (uploadLast (s3Stor c).toUploadStor).run (w, t) = .ok () (w', t') ∧
        view (endState (c.completeMultipartUpload w.filePath w.mputCtx.uploadId t')) w.filePath = some body

/-- The request may leave `v` as the object under `key`. -/
def FsReq.Sets (c : S3Client σ) (view : σ → Bucket) (fs : CatFS σ) (key : Str) (v : Option (List Byte)) : FsReq → Prop
  | .request _ r => r.Sets fs.world.cache key v
  | .releaseFile hno => ∃ file body, fs.openFiles hno = some file ∧ key = file.writer.filePath ∧
      file.writer.Leaves c view fs.world.stor body ∧ v = some body
  | _ => False

theorem run_release_empty {S : UploadStor σ} (hup : w.uptype = .PUT) (hp : w.putPart = none) :
    (release S).run (w, t) = .ok () (w, t) := by
  by_cases h : w.nextWriteOffset = 0
  · exact run_release_nothing h
  · simp [release, finishWrite, uploadFile, Prog.run_bind_apply, h, hup, hp]

theorem release_put (hc : c.Atomic view) {p : Part} (h0 : w.nextWriteOffset ≠ 0) (hup : w.uptype = .PUT) (hp : w.putPart = some p) :
    view (endState ((release (s3Stor c).toUploadStor).run (w, t))).2 = view t ∨
      view (endState ((release (s3Stor c).toUploadStor).run (w, t))).2 = (view t).put w.filePath (p.buf.take p.len) := by
  have hputs := hc.puts t w.filePath (p.buf.take p.len)
  rw [← endState_orServerError] at hputs
  rw [run_release_put h0 hup hp]
  simp only [s3Stor, Option.getD_some]
  cases hr : orServerError (c.putObject w.filePath (p.buf.take p.len)) t <;> rw [hr] at hputs <;> exact hputs

theorem uploadLast_uploadId {S : UploadStor σ} {w' : SequenceWriter} {t' : σ} (h : (uploadLast S).run (w, t) = .ok () (w', t')) :
    w'.mputCtx.uploadId = w.mputCtx.uploadId := by
  cases hp : w.mputPart with
  | none =>
    simp only [uploadLast, Prog.run_bind_apply, run_fields, hp, Prog.run_pure] at h
    obtain ⟨-, hw⟩ := Result.ok.inj h
    rw [← (Prod.mk.inj hw).1]
  | some p =>
    rcases Nat.eq_zero_or_pos p.woff with hw | hw
    · rw [run_uploadLast_empty hp hw] at h
      obtain ⟨-, hw⟩ := Result.ok.inj h
      rw [← (Prod.mk.inj hw).1]
    · rw [run_uploadLast hp hw] at h
      cases hr : S.mput (w.mputReq p) t with
      | ok r t₁ =>
        rw [hr] at h
        obtain ⟨-, hw⟩ := Result.ok.inj h
        rw [← (Prod.mk.inj hw).1]
        rfl
      | error e t₁ =>
        rw [hr] at h
        cases h

theorem release_mput (hc : c.Atomic view) (h0 : w.nextWriteOffset ≠ 0) (hup : w.uptype = .MPUT) :
    view (endState ((release (s3Stor c).toUploadStor).run (w, t))).2 = view t ∨ ∃ body, w.Leaves c view t body ∧
      view (endState ((release (s3Stor c).toUploadStor).run (w, t))).2 = (view t).put w.filePath body := by
  have hlast : KeepsKeys view (fun _ => True) w.filePath (view t) (uploadLast (s3Stor c).toUploadStor) :=
    keeps_uploadLast hc.toConfined
  have hkeys := hlast (w, t) ⟨rfl, fun _ _ => rfl⟩
  cases hr : (uploadLast (s3Stor c).toUploadStor).run (w, t) with
  | error e s =>
    rw [hr] at hkeys
    rw [run_release_mput h0 hup, hr]
    exact .inl (funext fun k => hkeys.view k trivial)
  | ok u s =>
    rw [hr] at hkeys
    have hview : view s.2 = view t := funext fun k => hkeys.view k trivial
    have hdone : view (endState ((release (s3Stor c).toUploadStor).run (w, t))).2 =
        view (endState (c.completeMultipartUpload w.filePath w.mputCtx.uploadId s.2)) := by
      rw [run_release_mput h0 hup, hr, ← endState_orServerError]
      simp only [s3Stor]
      rw [hkeys.path, uploadLast_uploadId hr]
      cases orServerError (c.completeMultipartUpload w.filePath w.mputCtx.uploadId) s.2 <;> rfl
    rw [hdone]
    rcases hc.completes s.2 w.filePath w.mputCtx.uploadId with hsame | ⟨body, hput⟩
    · exact .inl (hsame.trans hview)
    · refine .inr ⟨body, ⟨h0, ?_⟩, by rw [hput, hview]⟩
      rw [hup]
      refine ⟨s.1, s.2, hr, ?_⟩
      rw [hput, Bucket.put, Function.update_self]

theorem release_sets (hc : c.Atomic view) :
    view (endState ((release (s3Stor c).toUploadStor).run (w, t))).2 key = view t key ∨ key = w.filePath ∧ ∃ body,
      w.Leaves c view t body ∧ view (endState ((release (s3Stor c).toUploadStor).run (w, t))).2 key = some body := by
  by_cases h0 : w.nextWriteOffset = 0
  · rw [run_release_nothing h0]
    exact .inl rfl
  refine or_iff_not_imp_left.mpr fun hne => ?_
  cases hup : w.uptype with
  | PUT =>
    cases hp : w.putPart with
    | none =>
      rw [run_release_empty hup hp] at hne
      exact absurd rfl hne
    | some p =>
      obtain ⟨hkey, hv⟩ := Bucket.of_put_ne (release_put hc h0 hup hp) hne
      refine ⟨hkey, _, ⟨h0, ?_⟩, hv⟩
      rw [hup]
      exact ⟨p, hp, rfl⟩
  | MPUT =>
    rcases release_mput (t := t) hc h0 hup with hsame | ⟨body, hleaves, hput⟩
    · exact absurd (congrFun hsame key) hne
    · obtain ⟨hkey, hv⟩ := Bucket.of_put_ne (.inr hput) hne
      exact ⟨hkey, body, hleaves, hv⟩

/-- A request that ends at once in a directory that it does not know. -/
theorem known_of_end {α : Type} {q : MetaM σ α} {s : World σ} {pino : InodeID} {p : Addr} (hs : CacheInv s) (ht : Tame q)
    (hend : s.cache.lookup pino = none → endState (q.run s) = s) (hp : (endState (q.run s)).cache.lookup pino = some p) :
    s.cache.lookup pino = some p ∧ (endState (q.run s)).cache.dirPrefix p = s.cache.dirPrefix p := by
  have hgrow : Grow s.cache (endState (q.run s)).cache := (ht.run (s := s) hs).2
  cases ha : s.cache.lookup pino with
  | none =>
    rw [hend ha, ha] at hp
    cases hp
  | some a =>
    obtain rfl := Option.some.inj ((hgrow.index _ _ ha).symm.trans hp)
    exact ⟨rfl, dirPrefix_grow hs hgrow (Inv.indexed hs _ _ ha).1⟩

/-- After a request on names alone an object is what it was, or what the request may make of it. -/
theorem request_sets (hc : c.Atomic view) {s : World σ} (hs : CacheInv s) {fuel : Nat} (r : Request) :
    view (endState ((r.prog opt (s3Stor c) fuel).run s)).stor key = view s.stor key ∨
      r.Sets s.cache key (view (endState ((r.prog opt (s3Stor c) fuel).run s)).stor key) := by
  have hframes : Frames view r.Sets (fun _ => True) (r.prog opt (s3Stor c) fuel) fun _ _ => True :=
    frames_request hc r fun _ _ _ h => h
  have hobserve := hframes.observe (f := fun s => view s.stor key) (T := fun s v => r.Sets s.cache key v) (fun _ _ _ _ h => h.inv)
    (fun _ s s' hs h v => r.sets_settled s.cache s'.cache key v hs h.grow) (fun _ _ _ _ h => h.object key) hs trivial
  refine hobserve.1.imp id fun hsets => ?_
  have ht : Tame (r.prog opt (s3Stor c) fuel) := tame_request r
  cases r with
  | create pino n mode =>
    obtain ⟨p, hp, hkey, hv⟩ := hsets
    have hend : s.cache.lookup pino = none →
        endState (((Request.create pino n mode).prog opt (s3Stor c) fuel).run s) = s := by
      intro h
      rw [Request.prog, MetaImpl.createDentry, Prog.map_bind, Prog.run_bind_error (run_findDentry_unknown h), endState]
    obtain ⟨hp', hpre⟩ := known_of_end hs ht hend hp
    exact ⟨p, hp', by rw [hkey, hpre], hv⟩
  | remove pino n =>
    obtain ⟨p, hp, hkey, hv⟩ := hsets
    have hend : s.cache.lookup pino = none → endState (((Request.remove pino n).prog opt (s3Stor c) fuel).run s) = s := by
      intro h
      rw [Request.prog, MetaImpl.removeDentry, Prog.run_bind_error (run_findDentry_unknown h), endState]
    obtain ⟨hp', hpre⟩ := known_of_end hs ht hend hp
    exact ⟨p, hp', by rwa [hpre] at hkey, hv⟩
  | _ => exact hsets.elim

/-! ### Requests on handles -/

open CatFS

/-- The bucket is `b` before and after. -/
abbrev ShowsAlways {α : Type} (view : σ → Bucket) (b : Bucket) (f : FsM σ α) : Prop :=
  Behaves (fun fs => view fs.world.stor = b) f (fun _ fs => view fs.world.stor = b) fun _ fs => view fs.world.stor = b

variable {b : Bucket}

theorem shows_openFile : ShowsAlways view b (openFile hno : FsM σ _) := by
  intro fs hfs
  cases hf : fs.openFiles hno with
  | none =>
    rw [run_openFile_none hf]
    exact hfs
  | some file =>
    rw [run_openFile hf]
    exact hfs

theorem shows_modifyFile {f : OpenFile → OpenFile} : ShowsAlways view b (modifyFile hno f : FsM σ _) := fun _ hfs => hfs

/-- A step on the cache. -/
theorem shows_cache {α : Type} {l : MetaAct} {f : Timespec → LocalM α} : ShowsAlways view b (runMeta (cache l f)) := by
  intro fs hfs
  rw [runMeta, zoom, cache, Prog.run_lift, onCache, zoom]
  cases f fs.world.now fs.world.cache <;> exact hfs

theorem shows_openfile {ino : InodeID} {hasWrote : Bool} : ShowsAlways view b (openfile ino hasWrote : FsM σ _) := by
  have hget : ShowsAlways view b (runMeta (MetaImpl.getDentry ino)) := fun _ hfs => hfs
  refine hget.bind fun r => ?_
  cases r with
  | none => exact .throw fun _ h => h
  | some a =>
    have hnext : ShowsAlways view b getNextHandleId := fun _ hfs => hfs
    have hpath : ShowsAlways view b (runMeta (MetaImpl.fullPath a)) := shows_cache
    have hread : ShowsAlways view b (runMeta (readDentry a)) := shows_cache
    have hset : ∀ hno file, ShowsAlways view b (modify (·.setFile hno file) : FsM σ _) := fun _ _ _ hfs => hfs
    exact hnext.bind fun hno => hpath.bind fun path => hread.bind fun d =>
      Behaves.bind (hset hno _) fun _ => .pure fun _ h => h

section
variable (hc : c.Confined view)
include hc

theorem shows_readfile {off size : Nat} : ShowsAlways view b (readfile (s3Stor c) hno off size) := by
  have hpure : ∀ data : List Byte, ShowsAlways view b (pure data) := fun _ => .pure fun _ h => h
  have hread : ∀ req, ShowsAlways view b
      (zoom (fun fs : CatFS σ => fs.world.stor) (fun t fs => fs.setStor t) ((s3Stor c).readFile req)) := by
    refine fun req => Behaves.zoom fun fs hfs => ?_
    have hview : view (endState ((s3Stor c).readFile req fs.world.stor)) = view fs.world.stor :=
      (congrArg view ((endState_bind_pure _ _ _).trans (endState_orServerError _ _))).trans (hc.get ..)
    cases hr : (s3Stor c).readFile req fs.world.stor <;> rw [hr] at hview <;> exact hview.trans hfs
  exact shows_openFile.bind fun file => .ite (fun _ => hpure _) fun _ => .ite (fun _ => hpure _) fun _ =>
    (hread _).bind fun _ => hpure _

theorem shows_writefile {off : Nat} {data : List Byte} : ShowsAlways view b (writefile (s3Stor c) hno off data) := by
  have hwriter : ∀ file, ShowsAlways view b
      (runWriter hno file (SequenceWriter.write (s3Stor c).toUploadStor off data.length data)) := by
    intro file fs hfs
    have hview : view (endState ((SequenceWriter.write (s3Stor c).toUploadStor off data.length data).run
        (file.writer, fs.world.stor))).2 = view fs.world.stor := write_view hc
    rw [run_runWriter]
    cases hr : (SequenceWriter.write (s3Stor c).toUploadStor off data.length data).run (file.writer, fs.world.stor) <;>
      rw [hr] at hview <;> exact hview.trans hfs
  have hwrite : ShowsAlways view b (OpenFile.write (s3Stor c) hno off data.length data) :=
    shows_modifyFile.bind fun _ => shows_openFile.bind fun file => (hwriter file).bind fun _ => shows_modifyFile
  have hupdate : ∀ ino size, ShowsAlways view b (runMeta (MetaImpl.updateInodeSize ino size)) := fun _ _ => shows_cache
  refine shows_openFile.bind fun _ => hwrite.bind fun _ => shows_openFile.bind fun file => .ite (fun _ => ?_) fun _ => .pure fun _ h => h
  exact (hupdate _ _).bind fun _ => .pure fun _ h => h

end

theorem releaseFile_sets (hc : c.Atomic view) :
    view (endState (releaseFile (s3Stor c) hno fs)).world.stor key = view fs.world.stor key ∨
      (FsReq.releaseFile hno).Sets c view fs key (view (endState (releaseFile (s3Stor c) hno fs)).world.stor key) := by
  cases hf : fs.openFiles hno with
  | none =>
    rw [releaseFile, bind_error (run_openFile_none hf)]
    exact .inl rfl
  | some file =>
    have hsets : _ ∨ key = _ ∧ _ := release_sets (w := file.writer) (t := fs.world.stor) hc
    cases hr : (release (s3Stor c).toUploadStor).run (file.writer, fs.world.stor) with
    | ok u s =>
      rw [hr] at hsets
      rw [releaseFile_ok hf hr]
      refine hsets.imp id ?_
      rintro ⟨hkey, body, hleaves, hv⟩
      exact ⟨file, body, hf, hkey, hleaves, hv⟩
    | error e s =>
      rw [hr] at hsets
      rw [releaseFile_error hf hr]
      refine hsets.imp id ?_
      rintro ⟨hkey, body, hleaves, hv⟩
      exact ⟨file, body, hf, hkey, hleaves, hv⟩

/-- After a request an object is what it was, or what the request may make of it. -/
theorem exec_sets (hc : c.Atomic view) (hfs : Indexed (fun _ => True) fs) (r : FsReq) :
    view (endState (r.exec opt (s3Stor c) fs)).world.stor key = view fs.world.stor key ∨
      r.Sets c view fs key (view (endState (r.exec opt (s3Stor c) fs)).world.stor key) := by
  cases r with
  | request fuel r =>
    have hsets : view (endState ((r.prog opt (s3Stor c) fuel).run fs.world)).stor key = view fs.world.stor key ∨ _ :=
      request_sets hc hfs.inv r
    rw [FsReq.exec, runMeta, zoom]
    cases hr : (r.prog opt (s3Stor c) fuel).run fs.world <;> rw [hr] at hsets <;> exact hsets
  | openfile ino hasWrote =>
    have hshows : ShowsAlways view (view fs.world.stor) ((FsReq.openfile ino hasWrote).exec opt (s3Stor c)) :=
      shows_openfile.bind fun _ => .pure fun _ h => h
    exact .inl (congrFun (hshows.endState rfl) key)
  | readfile hno off size =>
    have hshows : ShowsAlways view (view fs.world.stor) ((FsReq.readfile hno off size).exec opt (s3Stor c)) :=
      (shows_readfile hc.toConfined).bind fun _ => .pure fun _ h => h
    exact .inl (congrFun (hshows.endState rfl) key)
  | writefile hno off data =>
    have hshows : ShowsAlways view (view fs.world.stor) ((FsReq.writefile hno off data).exec opt (s3Stor c)) :=
      (shows_writefile hc.toConfined).bind fun _ => .pure fun _ h => h
    exact .inl (congrFun (hshows.endState rfl) key)
  | releaseFile hno => exact releaseFile_sets hc

end

/-! ### Any number of mounts -/

/-- The rest of the mount over the store `t`. -/
def CatFS.over {σ τ : Type} (fs : CatFS τ) (t : σ) : CatFS σ :=
  { world := ⟨fs.world.cache, t, fs.world.now, fs.world.garbage⟩, openFiles := fs.openFiles, nextHandleId := fs.nextHandleId }

/-- What each mount has of its own, beside the store that they share. -/
structure Mounts (ι σ : Type) where
  stor : σ
  mount : ι → CatFS Unit

namespace Mounts
variable {ι σ : Type} [DecidableEq ι] {x y : Mounts ι σ} {i j : ι} {r : FsReq} {opt : ι → MetaOpt} {st : Stor σ}
  {c : S3Client σ} {view : σ → Bucket} {key : Str}

/-- The mount `i` and the store. -/
def side (x : Mounts ι σ) (i : ι) : CatFS σ := (x.mount i).over x.stor

/-- The mount `i` and the store became `fs`. -/
def setSide (x : Mounts ι σ) (i : ι) (fs : CatFS σ) : Mounts ι σ :=
  { stor := fs.world.stor, mount := Function.update x.mount i (fs.over ()) }

/-- The mount `i` serves the request. -/
def serve (opt : ι → MetaOpt) (st : Stor σ) (x : Mounts ι σ) (i : ι) (r : FsReq) : Mounts ι σ :=
  x.setSide i (endState (r.exec (opt i) st (x.side i)))

def setNow (x : Mounts ι σ) (i : ι) (now : Timespec) : Mounts ι σ :=
  { x with mount := Function.update x.mount i { x.mount i with world := { (x.mount i).world with now } } }

/-- New mounts over the store `t`. -/
def start (opt : ι → MetaOpt) (t : σ) (now : Timespec) (garbage : Garbage) : Mounts ι σ :=
  { stor := t, mount := fun i => CatFS.start (opt i) now () now garbage }

/-- A mount serves a request, or its clock moves. -/
inductive Step (opt : ι → MetaOpt) (st : Stor σ) : Mounts ι σ → Mounts ι σ → Prop
  | request (x : Mounts ι σ) (i : ι) (r : FsReq) : Step opt st x (x.serve opt st i r)
  | clock (x : Mounts ι σ) (i : ι) (now : Timespec) : Step opt st x (x.setNow i now)

/-- In every mount the inode of each handle is in the index. -/
def AllIndexed (x : Mounts ι σ) : Prop := ∀ i, Indexed (fun _ => True) (x.mount i)

omit [DecidableEq ι] in
theorem allIndexed_start {t : σ} {now : Timespec} {garbage : Garbage} : (start opt t now garbage).AllIndexed := fun i =>
  ⟨LocalMemMeta.Inv.new (opt i) now, nofun, nofun⟩

theorem indexed_over {τ : Type} {fs : CatFS τ} (t : σ) (h : Indexed (fun _ => True) fs) : Indexed (fun _ => True) (fs.over t) :=
  ⟨h.inv, h.file, h.writer⟩

theorem allIndexed_update {fs : CatFS Unit} (hx : x.AllIndexed) (hfs : Indexed (fun _ => True) fs) (t : σ) :
    AllIndexed { stor := t, mount := Function.update x.mount i fs } := by
  intro j
  by_cases hj : j = i
  · subst hj
    simpa using hfs
  · simpa [Function.update_of_ne hj] using hx j

theorem allIndexed_serve (hx : x.AllIndexed) : (x.serve opt st i r).AllIndexed := by
  have hsound : Sound (fun _ => True) (fun _ => True) (r.exec (opt i) st) fun _ _ => True := sound_request writes_true r
  exact allIndexed_update hx (indexed_over () (hsound.endState (indexed_over x.stor (hx i)) trivial).1) _

theorem allIndexed_setNow {now : Timespec} (hx : x.AllIndexed) : (x.setNow i now).AllIndexed := by
  have hnow : Indexed (fun _ => True) { x.mount i with world := { (x.mount i).world with now } } :=
    ⟨(hx i).inv, (hx i).file, (hx i).writer⟩
  exact allIndexed_update hx hnow x.stor

theorem allIndexed_step (hx : x.AllIndexed) (h : Step opt st x y) : y.AllIndexed := by
  cases h with
  | request => exact allIndexed_serve hx
  | clock => exact allIndexed_setNow hx

theorem allIndexed_steps (hx : x.AllIndexed) (h : ReflTransGen (Step opt st) x y) : y.AllIndexed := by
  induction h with
  | refl => exact hx
  | tail _ hs ih => exact allIndexed_step ih hs

/-- An object that differs after a run of any mounts, in whatever order they served their requests and whichever calls
    failed, is what the last request that changed it made of it, and no later request changed it. -/
theorem last_writer (hc : c.Atomic view) (hx : x.AllIndexed) (h : ReflTransGen (Step opt (s3Stor c)) x y)
    (hne : view y.stor key ≠ view x.stor key) : ∃ a i r, ReflTransGen (Step opt (s3Stor c)) x a ∧
      r.Sets c view (a.side i) key (view y.stor key) ∧
      ReflTransGen (Keeping (fun z => view z.stor key) (Step opt (s3Stor c))) (a.serve opt (s3Stor c) i r) y := by
  obtain ⟨a, b, hxa, hab, hchange, hby⟩ := last_change (f := fun z : Mounts ι σ => view z.stor key) h hne
  have hsame : view y.stor key = view b.stor key := observe_keeping hby
  cases hab with
  | clock i now => exact absurd rfl hchange
  | request i r =>
    have hside : Indexed (fun _ => True) (a.side i) := indexed_over a.stor (allIndexed_steps hx hxa i)
    refine ⟨a, i, r, hxa, ?_, hby⟩
    rw [hsame]
    exact (exec_sets hc hside r).resolve_left hchange

/-- The requests in their order. -/
def serveAll (opt : ι → MetaOpt) (st : Stor σ) (x : Mounts ι σ) (reqs : List (ι × FsReq)) : Mounts ι σ :=
  reqs.foldl (fun x r => x.serve opt st r.1 r.2) x

theorem steps_serveAll (opt : ι → MetaOpt) (st : Stor σ) (x : Mounts ι σ) (reqs : List (ι × FsReq)) :
    ReflTransGen (Step opt st) x (x.serveAll opt st reqs) := by
  induction reqs generalizing x with
  | nil => exact .refl
  | cons r reqs ih => exact .head (.request x r.1 r.2) (ih _)

/-- One mount creates a file, the other one writes to it. -/
def createThenWrite : List (Bool × FsReq) :=
  [(false, .request 1 (.create ROOT_INODE_ID ['f'] S_IFREG)), (true, .request 1 (.find ROOT_INODE_ID ['f'])),
    (true, .openfile 2 false), (true, .writefile 0 0 [1, 2]), (true, .releaseFile 0)]

def twoMounts : Mounts Bool Log := start (fun _ => ⟨0, 0, 60⟩) [] ⟨0, 0⟩ noGarbage

def afterWrite : Mounts Bool Log := twoMounts.serveAll (fun _ => ⟨0, 0, 60⟩) (s3Stor Log.client) createThenWrite

theorem last_writer_release : ∃ a i r,
    ReflTransGen (Step (fun _ => ⟨0, 0, 60⟩) (s3Stor Log.client)) twoMounts a ∧ r.Sets Log.client Log.bucket (a.side i) ['f'] (afterWrite.stor.bucket ['f']) ∧
      ReflTransGen (Keeping (fun z => z.stor.bucket ['f']) (Step (fun _ => ⟨0, 0, 60⟩) (s3Stor Log.client)))
        (a.serve (fun _ => ⟨0, 0, 60⟩) (s3Stor Log.client) i r) afterWrite :=
  last_writer Log.client_atomic allIndexed_start (steps_serveAll _ _ _ _) (by decide +kernel)

example : afterWrite.stor.bucket ['f'] = some [1, 2] := by decide +kernel

end Mounts

end Catfs
