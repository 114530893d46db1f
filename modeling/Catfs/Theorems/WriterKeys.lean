import Catfs.Theorems.FsRun
import Catfs.Theorems.Unlinked
import Catfs.Theorems.WriteOutcome

/-! # The keys that a writer changes

A write sends parts of an upload at most, which the bucket does not show. A release changes the object under the path
of its writer at most, and sends nothing when the writer accepted nothing. -/

namespace Catfs

open Lib WriterM SequenceWriter
open EStateM (Result)

variable {σ α : Type} {view : σ → Bucket} {K : Str → Prop} {path : Str} {b : Bucket}

/-- The path of the writer, and the objects that the bucket `b` has under the keys in `K`. -/
structure KeysAt (view : σ → Bucket) (K : Str → Prop) (path : Str) (b : Bucket) (s : SequenceWriter × σ) : Prop where
  path : s.1.filePath = path
  view : ∀ k, K k → view s.2 k = b k

/-- The objects under the keys in `K` stay, and so does the path. -/
abbrev KeepsKeys (view : σ → Bucket) (K : Str → Prop) (path : Str) (b : Bucket) (p : WriterM σ α) : Prop :=
  Behaves (KeysAt view K path b) p.run (fun _ => KeysAt view K path b) fun _ => KeysAt view K path b

theorem keeps_path : Behaves (KeysAt view K path b) fields.run (fun w s => w.filePath = path ∧ KeysAt view K path b s) fun _ =>
    KeysAt view K path b := by
  intro s hs
  rw [run_fields]
  exact ⟨hs.path, hs⟩

theorem keeps_fields : KeepsKeys view K path b fields := keeps_path.post (fun _ _ h => h.2) fun _ _ h => h

theorem keeps_update {f : SequenceWriter → SequenceWriter} (h : ∀ w, (f w).filePath = w.filePath) :
    KeepsKeys view K path b (update f) := by
  intro s hs
  rw [run_update]
  exact ⟨(h s.1).trans hs.path, hs.view⟩

theorem filePath_setPart {w : SequenceWriter} {slot : Slot} {p : Option Part} : (w.setPart slot p).filePath = w.filePath := by
  cases slot <;> rfl

theorem keeps_setPart {slot : Slot} {p : SequenceWriter → Option Part} :
    KeepsKeys view K path b (update fun w => w.setPart slot (p w)) := keeps_update fun _ => filePath_setPart

theorem keeps_call {l : WriterAct} {f : EStateM Err σ α} (h : ∀ t k, K k → view (endState (f t)) k = view t k) :
    KeepsKeys view K path b (call l f) := by
  intro s hs
  have hk := h s.2
  rw [run_call]
  cases hr : f s.2 with
  | ok r t =>
    rw [hr] at hk
    exact ⟨hs.path, fun k hK => (hk k hK).trans (hs.view k hK)⟩
  | error e t =>
    rw [hr] at hk
    exact ⟨hs.path, fun k hK => (hk k hK).trans (hs.view k hK)⟩

theorem keeps_deref {slot : Slot} : KeepsKeys view K path b (deref slot) := by
  refine Prog.behaves_bind keeps_fields fun w => ?_
  cases w.part slot with
  | some p => exact .pure fun _ hs => hs
  | none => exact .throw fun _ hs => hs

theorem keeps_partWrite {slot : Slot} {size : Nat} {data : List Byte} :
    KeepsKeys view K path b (Part.write slot data size) := by
  refine Prog.behaves_bind keeps_deref fun p => Prog.behaves_ite (.pure fun _ hs => hs) ?_
  have hcopy : KeepsKeys view K path b (Prog.lift (.memcpy p.partSize p.woff size data.length)
      (modify fun s => (s.1.setPart slot (some (p.append data size)), s.2))) := by
    intro s hs
    rw [Prog.run_lift]
    exact ⟨filePath_setPart.trans hs.path, hs.view⟩
  exact Prog.behaves_bind hcopy fun _ => .pure fun _ hs => hs

section
variable {c : S3Client σ} (hc : c.Confined view)
include hc

theorem keeps_uploadPart {slot : Slot} : KeepsKeys view K path b (uploadPart (s3Stor c).toUploadStor slot) := by
  refine Prog.behaves_bind keeps_fields fun w => Prog.behaves_bind (keeps_update fun _ => rfl) fun _ =>
    Prog.behaves_bind keeps_deref fun p => keeps_call fun t k _ => ?_
  simp only [s3Stor, endState_orServerError, hc.part]

theorem keeps_uploadFull : KeepsKeys view K path b (uploadFull (s3Stor c).toUploadStor) :=
  Prog.behaves_bind keeps_deref fun _ => Prog.behaves_ite (Prog.behaves_bind (keeps_uploadPart hc) fun _ =>
    Prog.behaves_bind keeps_deref fun _ => keeps_setPart) (.pure fun _ hs => hs)

theorem keeps_copyLoop (fuel copied total : Nat) : KeepsKeys view K path b (copyLoop (s3Stor c).toUploadStor fuel copied total) := by
  induction fuel generalizing copied with
  | zero =>
    rw [copyLoop]
    exact Prog.behaves_ite (.throw fun _ hs => hs) (.pure fun _ hs => hs)
  | succ fuel ih =>
    rw [copyLoop]
    have hcopy : ∀ size, KeepsKeys view K path b (Part.copy .mput .put copied size) := fun size =>
      Prog.behaves_bind keeps_deref fun _ => Prog.behaves_bind keeps_partWrite fun _ => .pure fun _ hs => hs
    exact Prog.behaves_ite (Prog.behaves_bind (hcopy _) fun _ => Prog.behaves_bind (keeps_uploadFull hc) fun _ => ih _)
      (.pure fun _ hs => hs)

theorem keeps_switchMputMode : KeepsKeys view K path b (switchMputMode (s3Stor c).toUploadStor) := by
  have hinit : ∀ req, KeepsKeys view K path b (call .minit ((s3Stor c).minit req)) := fun req => keeps_call fun t k _ => by
    have hend : endState ((s3Stor c).minit req t) = endState (c.createMultipartUpload req.objKey t) :=
      (endState_bind_pure _ _ t).trans (endState_orServerError _ t)
    rw [hend, hc.create]
  have hset : ∀ {f : SequenceWriter → SequenceWriter}, (∀ w, (f w).filePath = w.filePath) → KeepsKeys view K path b (update f) :=
    fun h => keeps_update h
  exact Prog.behaves_bind keeps_fields fun _ => Prog.behaves_bind (hinit _) fun _ =>
    Prog.behaves_bind (hset fun _ => rfl) fun _ => Prog.behaves_bind (hset fun _ => rfl) fun _ =>
    Prog.behaves_bind (hset fun _ => rfl) fun _ => Prog.behaves_bind (hset fun _ => rfl) fun _ =>
    Prog.behaves_bind keeps_deref fun _ => Prog.behaves_bind keeps_deref fun _ =>
    Prog.behaves_ite (Prog.behaves_bind (keeps_uploadPart hc) fun _ => keeps_setPart)
      (Prog.behaves_bind (keeps_copyLoop hc _ _ _) fun _ => keeps_setPart)

theorem keeps_writeLoop (fuel size wbytes total : Nat) (data : List Byte) :
    KeepsKeys view K path b (writeLoop (s3Stor c).toUploadStor fuel data size wbytes total) := by
  induction fuel generalizing size wbytes data with
  | zero =>
    rw [writeLoop]
    exact Prog.behaves_ite (.pure fun _ hs => hs) (.throw fun _ hs => hs)
  | succ fuel ih =>
    rw [writeLoop]
    refine Prog.behaves_ite (.pure fun _ hs => hs) (Prog.behaves_bind keeps_fields fun w => ?_)
    cases w.uptype with
    | PUT =>
      have hopen : KeepsKeys view K path b openPutPart := keeps_setPart
      refine Prog.behaves_bind hopen fun _ => Prog.behaves_bind keeps_partWrite fun _ =>
        Prog.behaves_bind keeps_deref fun _ => Prog.behaves_ite ?_ ?_
      · exact Prog.behaves_ite (Prog.behaves_bind (keeps_switchMputMode hc) fun _ => ih _ _ _) (.pure fun _ hs => hs)
      · exact Prog.behaves_ite (.pure fun _ hs => hs) (ih _ _ _)
    | MPUT => exact Prog.behaves_bind keeps_partWrite fun _ => Prog.behaves_bind (keeps_uploadFull hc) fun _ => ih _ _ _

theorem keeps_write {off size : Nat} {data : List Byte} :
    KeepsKeys view K path b (SequenceWriter.write (s3Stor c).toUploadStor off size data) :=
  Prog.behaves_bind keeps_fields fun _ => Prog.behaves_ite (.throw fun _ hs => hs) <|
    Prog.behaves_bind (keeps_writeLoop hc _ _ _ _ _) fun _ =>
      Prog.behaves_bind (keeps_update fun _ => rfl) fun _ => .pure fun _ hs => hs

theorem keeps_uploadLast : KeepsKeys view K path b (uploadLast (s3Stor c).toUploadStor) := by
  refine Prog.behaves_bind keeps_fields fun w => ?_
  cases w.mputPart with
  | none => exact .pure fun _ hs => hs
  | some p => exact Prog.behaves_ite (Prog.behaves_bind (keeps_uploadPart hc) fun _ => keeps_setPart) (.pure fun _ hs => hs)

/-- A release changes what is under the path of its writer. -/
theorem keeps_release (hK : ¬ K path) : KeepsKeys view K path b (release (s3Stor c).toUploadStor) := by
  have hother : ∀ {w : SequenceWriter} {k : Str}, w.filePath = path → K k → k ≠ w.filePath := by
    rintro w k hw hk rfl
    exact hK (hw ▸ hk)
  have hfile : KeepsKeys view K path b (uploadFile (s3Stor c).toUploadStor) := by
    refine Prog.behaves_bind keeps_path fun w s hs => ?_
    cases w.putPart with
    | none => exact hs.2
    | some p =>
      refine keeps_call (fun t k hk => ?_) s hs.2
      simp only [s3Stor, endState_orServerError]
      exact hc.put t _ _ k (hother hs.1 hk)
  have hfinish : KeepsKeys view K path b (finishMput (s3Stor c).toUploadStor) := by
    refine Prog.behaves_bind (keeps_uploadLast hc) fun _ => Prog.behaves_bind keeps_path fun w s hs => ?_
    refine keeps_call (fun t k hk => ?_) s hs.2
    simp only [s3Stor, endState_orServerError]
    exact hc.complete t _ _ k (hother hs.1 hk)
  refine Prog.behaves_bind keeps_fields fun w => Prog.behaves_ite (.pure fun _ hs => hs) ?_
  cases w.uptype with
  | PUT => exact hfile
  | MPUT => exact hfinish

variable {w : SequenceWriter} {t : σ}

/-- The bucket is the same after a write. -/
theorem write_view {off size : Nat} {data : List Byte} :
    view (endState ((SequenceWriter.write (s3Stor c).toUploadStor off size data).run (w, t))).2 = view t := by
  have hwrite : KeepsKeys view (fun _ => True) w.filePath (view t) (SequenceWriter.write (s3Stor c).toUploadStor off size data) :=
    keeps_write hc
  have hkeys := hwrite (w, t) ⟨rfl, fun _ _ => rfl⟩
  funext k
  cases hr : (SequenceWriter.write (s3Stor c).toUploadStor off size data).run (w, t) <;> rw [hr] at hkeys <;>
    exact hkeys.view k trivial

/-- And after a release, except under the path of the writer when it accepted something. -/
theorem release_view {k : Str} (hk : w.nextWriteOffset ≠ 0 → k ≠ w.filePath) :
    view (endState ((release (s3Stor c).toUploadStor).run (w, t))).2 k = view t k := by
  by_cases h0 : w.nextWriteOffset = 0
  · rw [run_release_nothing h0]
    rfl
  · have hne : ¬ w.filePath ≠ w.filePath := not_not.mpr rfl
    have hkeys := keeps_release (K := (· ≠ w.filePath)) (b := view t) hc hne (w, t) ⟨rfl, fun _ _ => rfl⟩
    cases hr : (release (s3Stor c).toUploadStor).run (w, t) <;> rw [hr] at hkeys <;> exact hkeys.view k (hk h0)

end

end Catfs
