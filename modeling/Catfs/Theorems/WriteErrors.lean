import Catfs.Theorems.FsRun
import Catfs.Theorems.StdErrors
import Catfs.Theorems.WriteOutcome

/-! # The exceptions of the writer

Over a store with parts of 8 MiB that throws only classes derived from `std::exception`, a write throws another value
in two states: at an offset that is not the next one, and when the part of the multipart upload is gone. -/

namespace Catfs

open Lib WriterM SequenceWriter
open EStateM (Result)

variable {σ α : Type} {st : Stor σ} {s : SequenceWriter × σ} {w : SequenceWriter} {t : σ} {p : Part} {e : Err}
  {n : Nat} {data : List Byte}

/-- The parts of an upload are of 8 MiB. -/
def Stor.EightMiB (st : Stor σ) : Prop := ∀ req t r t', st.minit req t = .ok r t' → r.partSize = MB_8

theorem s3Stor_eightMiB (c : S3Client σ) : (s3Stor c).EightMiB := by
  intro req t r t' h
  cases ha : orServerError (c.createMultipartUpload req.objKey) t with
  | error e t₁ =>
    have hrun : (s3Stor c).minit req t = .error e t₁ := bind_error ha
    rw [hrun] at h
    cases h
  | ok a t₁ =>
    have hrun : (s3Stor c).minit req t = .ok { partSize := MB_8, uploadId := a } t₁ := bind_ok ha
    rw [hrun] at h
    obtain ⟨rfl, rfl⟩ := Result.ok.inj h
    rfl

/-! ### The sizes of the parts -/

/-- The parts that the writer holds are of 8 MiB. -/
def SequenceWriter.PartsSized (w : SequenceWriter) : Prop := ∀ slot p, w.part slot = some p → p.partSize = MB_8

theorem SequenceWriter.PartsSized.setPart (h : w.PartsSized) (slot : Slot) {p : Option Part} (hp : ∀ q, p = some q → q.partSize = MB_8) :
    (w.setPart slot p).PartsSized := by
  intro slot' q hq
  cases slot <;> cases slot'
  · exact hp q hq
  · exact h .mput q hq
  · exact h .put q hq
  · exact hp q hq

theorem SequenceWriter.PartsSized.drop (h : w.PartsSized) (slot : Slot) : (w.setPart slot none).PartsSized :=
  h.setPart slot fun _ hq => by cases hq

theorem sized_fields : Maintains (σ := σ) PartsSized fields := by
  intro s hs
  rw [run_fields]
  exact hs

theorem sized_update {f : SequenceWriter → SequenceWriter} (h : ∀ w, w.PartsSized → (f w).PartsSized) :
    Maintains (σ := σ) PartsSized (update f) := by
  intro s hs
  rw [run_update]
  exact h s.1 hs

theorem sized_call {l : WriterAct} {f : EStateM Err σ α} : Maintains PartsSized (call l f) := by
  intro s hs
  rw [run_call]
  cases f s.2 <;> exact hs

theorem sized_partOf {slot : Slot} : Behaves (fun s : SequenceWriter × σ => s.1.PartsSized) (deref slot).run
    (fun p s => p.partSize = MB_8 ∧ s.1.PartsSized) fun _ s => s.1.PartsSized := by
  intro s hs
  cases hp : s.1.part slot with
  | none =>
    rw [run_deref_none hp]
    exact hs
  | some p =>
    rw [run_deref hp]
    exact ⟨hs slot p hp, hs⟩

theorem sized_deref {slot : Slot} : Maintains (σ := σ) PartsSized (deref slot) :=
  sized_partOf.post (fun _ _ h => h.2) fun _ _ h => h

theorem sized_partWrite {slot : Slot} {size : Nat} : Maintains (σ := σ) PartsSized (Part.write slot data size) := by
  refine Prog.behaves_bind sized_partOf fun p => Prog.behaves_ite (.pure fun _ hs => hs.2) ?_
  have hcopy : Behaves (fun s : SequenceWriter × σ => p.partSize = MB_8 ∧ s.1.PartsSized)
      (Prog.lift (.memcpy p.partSize p.woff size data.length)
        (modify fun s => (s.1.setPart slot (some (p.append data size)), s.2)) : WriterM σ Unit).run
      (fun _ s => s.1.PartsSized) fun _ s => s.1.PartsSized := by
    intro s hs
    rw [Prog.run_lift]
    exact hs.2.setPart slot fun q hq => by cases hq; exact hs.1
  exact Prog.behaves_bind hcopy fun _ => .pure fun _ hs => hs

section
variable {S : UploadStor σ}

theorem sized_uploadPart {slot : Slot} : Maintains PartsSized (uploadPart S slot) :=
  Prog.behaves_bind sized_fields fun _ =>
    Prog.behaves_bind (sized_update fun _ h => h) fun _ =>
    Prog.behaves_bind sized_deref fun _ => sized_call

theorem sized_uploadFull : Maintains PartsSized (uploadFull S) := by
  refine Prog.behaves_bind sized_deref fun p => Prog.behaves_ite ?_ (.pure fun _ hs => hs)
  refine Prog.behaves_bind sized_uploadPart fun _ => Prog.behaves_bind sized_partOf fun p s hs => ?_
  rw [run_update]
  exact hs.2.setPart .mput fun q hq => by cases hq; exact hs.1

theorem sized_copyLoop (fuel copied total : Nat) : Maintains PartsSized (copyLoop S fuel copied total) := by
  induction fuel generalizing copied with
  | zero =>
    rw [copyLoop]
    exact Prog.behaves_ite (.throw fun _ hs => hs) (.pure fun _ hs => hs)
  | succ fuel ih =>
    rw [copyLoop]
    refine Prog.behaves_ite ?_ (.pure fun _ hs => hs)
    have hcopy : ∀ size, Maintains (σ := σ) PartsSized (Part.copy .mput .put copied size) := fun size =>
      Prog.behaves_bind sized_deref fun _ =>
        Prog.behaves_bind sized_partWrite fun _ => .pure fun _ hs => hs
    exact Prog.behaves_bind (hcopy _) fun _ => Prog.behaves_bind sized_uploadFull fun _ => ih _

end

section
variable (h8 : st.EightMiB)
include h8

theorem sized_switchMputMode : Maintains PartsSized (switchMputMode st.toUploadStor) := by
  have hinit : ∀ req, Behaves (fun s : SequenceWriter × σ => s.1.PartsSized) (call .minit (st.minit req)).run
      (fun r s => r.partSize = MB_8 ∧ s.1.PartsSized) fun _ s => s.1.PartsSized := by
    intro req s hs
    rw [run_call]
    cases hr : st.minit req s.2 with
    | ok r t => exact ⟨h8 _ _ _ _ hr, hs⟩
    | error e t => exact hs
  refine Prog.behaves_bind sized_fields fun _ =>
    Prog.behaves_bind (hinit _) fun r => ?_
  have hpart : Behaves (fun s : SequenceWriter × σ => r.partSize = MB_8 ∧ s.1.PartsSized)
      (update fun w => { w with mputPart := some (Part.new r.partSize) }).run (fun _ s => s.1.PartsSized) fun _ s => s.1.PartsSized := by
    intro s hs
    rw [run_update]
    exact hs.2.setPart .mput fun q hq => by cases hq; exact hs.1
  have hdrop : Maintains (σ := σ) PartsSized (update (·.setPart .put none)) := sized_update fun _ h => h.drop .put
  exact Prog.behaves_bind hpart fun _ => Prog.behaves_bind (sized_update fun _ h => h) fun _ =>
    Prog.behaves_bind (sized_update fun _ h => h) fun _ => Prog.behaves_bind (sized_update fun _ h => h) fun _ =>
    Prog.behaves_bind sized_deref fun _ => Prog.behaves_bind sized_deref fun _ =>
    Prog.behaves_ite (Prog.behaves_bind sized_uploadPart fun _ => hdrop)
      (Prog.behaves_bind (sized_copyLoop _ _ _) fun _ => hdrop)

theorem sized_writeLoop (fuel size wbytes total : Nat) (data : List Byte) :
    Maintains PartsSized (writeLoop st.toUploadStor fuel data size wbytes total) := by
  induction fuel generalizing size wbytes data with
  | zero =>
    rw [writeLoop]
    exact Prog.behaves_ite (.pure fun _ hs => hs) (.throw fun _ hs => hs)
  | succ fuel ih =>
    rw [writeLoop]
    refine Prog.behaves_ite (.pure fun _ hs => hs) (Prog.behaves_bind sized_fields fun w => ?_)
    have hopen : Maintains (σ := σ) PartsSized openPutPart := sized_update fun w h => h.setPart .put fun q hq => by
      cases hput : w.putPart with
      | none =>
        rw [hput] at hq
        cases hq
        rfl
      | some p =>
        rw [hput] at hq
        cases hq
        exact h .put p hput
    cases w.uptype with
    | PUT =>
      refine Prog.behaves_bind hopen fun _ => Prog.behaves_bind sized_partWrite fun _ =>
        Prog.behaves_bind sized_deref fun _ => Prog.behaves_ite ?_ ?_
      · exact Prog.behaves_ite (Prog.behaves_bind (sized_switchMputMode h8) fun _ => ih _ _ _) (.pure fun _ hs => hs)
      · exact Prog.behaves_ite (.pure fun _ hs => hs) (ih _ _ _)
    | MPUT => exact Prog.behaves_bind sized_partWrite fun _ => Prog.behaves_bind sized_uploadFull fun _ => ih _ _ _

/-- All that a writer ever holds are parts of 8 MiB. -/
theorem writes_sized : WriterKeeps PartsSized st where
  new _ slot p hp := by cases slot <;> cases hp
  write off size data := Prog.behaves_bind sized_fields fun w =>
    Prog.behaves_ite (.throw fun _ hs => hs) (Prog.behaves_bind (sized_writeLoop h8 _ _ _ _ _) fun _ =>
      Prog.behaves_bind (sized_update fun _ h => h) fun _ => .pure fun _ hs => hs)
  release := by
    have hlast : Maintains PartsSized (uploadLast st.toUploadStor) := by
      refine Prog.behaves_bind sized_fields fun w => ?_
      cases w.mputPart with
      | none => exact .pure fun _ hs => hs
      | some p => exact Prog.behaves_ite (Prog.behaves_bind sized_uploadPart fun _ =>
          sized_update fun _ h => h.drop .mput) (.pure fun _ hs => hs)
    refine Prog.behaves_bind sized_fields fun w =>
      Prog.behaves_ite (.pure fun _ hs => hs) ?_
    cases w.uptype with
    | PUT =>
      refine Prog.behaves_bind sized_fields fun w => ?_
      cases w.putPart with
      | none => exact .pure fun _ hs => hs
      | some p => exact sized_call
    | MPUT =>
      exact Prog.behaves_bind hlast fun _ =>
        Prog.behaves_bind sized_fields fun _ => sized_call

end

/-! ### What the calls throw -/

/-- A write of `data` at `off` is one that the writer takes: it is at the next offset and the part that it goes to was
    not given up by a release. -/
def SequenceWriter.Takes (w : SequenceWriter) (off : Nat) (data : List Byte) : Prop :=
  w.nextWriteOffset = off ∧ (data = [] ∨ ¬ (w.uptype = .MPUT ∧ w.mputPart = none))

section
variable (hst : st.ThrowsStd)
include hst

/-- After the upload of a full part there is room in it. -/
theorem uploadFull_std (hp : w.mputPart = some p) (h8 : p.partSize = MB_8) :
    match (uploadFull st.toUploadStor).run (w, t) with
    | .ok _ s' => s'.1.uptype = w.uptype ∧ ∃ q, s'.1.mputPart = some q ∧ q.woff ≠ q.partSize
    | .error e _ => e.isStdException = true := by
  by_cases hfull : p.woff = p.partSize
  · rw [run_uploadFull hp hfull]
    cases hm : st.mput (w.mputReq p) t with
    | ok a t' => exact ⟨rfl, p.clear, rfl, (h8 ▸ Nat.ne_of_lt MB_8_pos : 0 ≠ p.partSize)⟩
    | error e t' => exact hst.mput _ _ _ _ hm
  · rw [run_uploadFull_not hp hfull]
    exact ⟨rfl, p, hp, hfull⟩

theorem writeLoop_mput_std {fuel : Nat} (hup : w.uptype = .MPUT) (hp : w.mputPart = some p) (h8 : w.PartsSized) (h0 : 0 < n)
    (hlt : n < 2 ^ 31) {s' : SequenceWriter × σ}
    (hrun : (writeLoop st.toUploadStor (fuel + 2) data n 0 n).run (w, t) = .error e s') : e.isStdException = true := by
  have hroom : ∀ {w : SequenceWriter} {t : σ} {p : Part} {fuel : Nat}, w.uptype = .MPUT → w.mputPart = some p → w.PartsSized →
      p.woff ≠ p.partSize → (writeLoop st.toUploadStor (fuel + 1) data n 0 n).run (w, t) = .error e s' →
      e.isStdException = true := by
    intro w t p fuel hup hp h8 hroom hrun
    rw [run_writeLoop_mput_room hup hp hroom h0 hlt] at hrun
    have hup := uploadFull_std hst (w := w.setPart .mput (some (p.append data n))) (t := t) rfl (h8 .mput p hp)
    rw [hrun] at hup
    exact hup
  by_cases hfull : p.woff = p.partSize
  · rw [run_writeLoop_mput_full hup hp hfull h0 hlt] at hrun
    have hleft := uploadFull_std hst (t := t) hp (h8 .mput p hp)
    have hsized := sized_uploadFull (S := st.toUploadStor) (w, t) h8
    cases hu : (uploadFull st.toUploadStor).run (w, t) with
    | ok a s₁ =>
      rw [hu] at hrun hleft hsized
      obtain ⟨hup', q, hq, hne⟩ := hleft
      exact hroom (hup'.trans hup) hq hsized hne hrun
    | error e' s₁ =>
      rw [hu] at hrun hleft
      obtain ⟨rfl, rfl⟩ := Result.error.inj hrun
      exact hleft
  · exact hroom hup hp h8 hfull hrun

/-- A switch to a multipart upload leaves an empty part of that upload. -/
theorem switchMputMode_std (h8 : st.EightMiB) (hput : w.putPart = some p) (hfull : p.woff = p.partSize)
    (hsize : p.partSize = MB_8) : match (switchMputMode st.toUploadStor).run (w, t) with
    | .ok _ s' => s'.1.uptype = .MPUT ∧ ∃ q, s'.1.mputPart = some q
    | .error e _ => e.isStdException = true := by
  cases hm : st.minit { objKey := w.filePath } t with
  | error e t' =>
    rw [run_switchMputMode_error hm]
    exact hst.minit _ _ _ _ hm
  | ok r t' =>
    have hr : r.partSize = MB_8 := h8 _ _ _ _ hm
    have hlt : r.partSize < 2 ^ 64 := hr ▸ by decide
    rw [run_switchMputMode_upload hput hm hlt (hr.trans (hfull.trans hsize).symm)]
    cases hu : st.mput ((w.beginMput r).mputReq p) t' with
    | ok a t'' => exact ⟨rfl, _, rfl⟩
    | error e t'' => exact hst.mput _ _ _ _ hu

theorem writeLoop_put_std {fuel : Nat} (h8 : st.EightMiB) (hup : w.uptype = .PUT) (hw : w.PartsSized) (h0 : 0 < n)
    (hlt : n < 2 ^ 31) {s' : SequenceWriter × σ}
    (hrun : (writeLoop st.toUploadStor (fuel + 3) data n 0 n).run (w, t) = .error e s') : e.isStdException = true := by
  by_cases hfull : w.putOrNew.woff = w.putOrNew.partSize
  · have hput := putPart_of_full hfull
    rw [run_writeLoop_put_full hup hput hfull h0 hlt] at hrun
    have hleft := switchMputMode_std hst (t := t) h8 hput hfull (hw .put _ hput)
    have hsized := sized_switchMputMode h8 (w, t) hw
    cases hm : (switchMputMode st.toUploadStor).run (w, t) with
    | ok a s₁ =>
      rw [hm] at hrun hleft hsized
      obtain ⟨hup', q, hq⟩ := hleft
      exact writeLoop_mput_std hst hup' hq hsized h0 hlt hrun
    | error e' s₁ =>
      rw [hm] at hrun hleft
      obtain ⟨rfl, rfl⟩ := Result.error.inj hrun
      exact hleft
  · rw [run_writeLoop_put_room hup rfl hfull h0 hlt] at hrun
    cases hrun

/-- A write that the writer takes throws only what is derived from `std::exception`. -/
theorem write_std {off : Nat} (h8 : st.EightMiB) (hw : w.PartsSized) (hlt : data.length < 2 ^ 31) (h : w.Takes off data)
    {s' : SequenceWriter × σ}
    (hrun : (SequenceWriter.write st.toUploadStor off data.length data).run (w, t) = .error e s') :
    e.isStdException = true := by
  obtain ⟨hoff, hpart⟩ := h
  rw [run_write hoff] at hrun
  have hdata : ∃ s', (writeData st.toUploadStor data data.length).run (w, t) = .error e s' := by
    cases hr : (writeData st.toUploadStor data data.length).run (w, t) with
    | ok a s₁ =>
      rw [hr] at hrun
      cases hrun
    | error e' s₁ =>
      rw [hr] at hrun
      obtain ⟨rfl, -⟩ := Result.error.inj hrun
      exact ⟨s₁, rfl⟩
  obtain ⟨s₁, hr⟩ := hdata
  by_cases hne : data = []
  · rw [hne, List.length_nil, run_writeData_nil] at hr
    cases hr
  · have h0 : 0 < data.length := List.length_pos_iff.mpr hne
    cases hup : w.uptype with
    | PUT => exact writeLoop_put_std hst h8 hup hw h0 hlt hr
    | MPUT =>
      cases hp : w.mputPart with
      | none => exact absurd ⟨hup, hp⟩ (hpart.resolve_left hne)
      | some p => exact writeLoop_mput_std hst hup hp hw h0 hlt hr

theorem uploadLast_std {s' : SequenceWriter × σ} (hrun : (uploadLast st.toUploadStor).run (w, t) = .error e s') :
    e.isStdException = true := by
  cases hp : w.mputPart with
  | none => simp [uploadLast, Prog.run_bind_apply, hp] at hrun
  | some p =>
    by_cases hlen : 0 < p.woff
    · rw [run_uploadLast hp hlen] at hrun
      cases hm : st.mput (w.mputReq p) t with
      | ok a t' =>
        rw [hm] at hrun
        cases hrun
      | error e' t' =>
        rw [hm] at hrun
        obtain ⟨rfl, -⟩ := Result.error.inj hrun
        exact hst.mput _ _ _ _ hm
    · rw [run_uploadLast_empty hp (Nat.eq_zero_of_not_pos hlen)] at hrun
      cases hrun

theorem release_std {s' : SequenceWriter × σ} (hrun : (release st.toUploadStor).run (w, t) = .error e s') :
    e.isStdException = true := by
  by_cases h0 : w.nextWriteOffset = 0
  · rw [run_release_nothing h0] at hrun
    cases hrun
  cases hup : w.uptype with
  | PUT =>
    cases hp : w.putPart with
    | none =>
      have hnone : (release st.toUploadStor).run (w, t) = .ok () (w, t) := by
        simp [release, finishWrite, uploadFile, Prog.run_bind_apply, h0, hup, hp]
      rw [hnone] at hrun
      cases hrun
    | some p =>
      rw [run_release_put h0 hup hp] at hrun
      cases hput : st.putFile { objKey := w.filePath, buf := some p.buf, size := p.len, metaData := [] } t with
      | ok a t' =>
        rw [hput] at hrun
        cases hrun
      | error e' t' =>
        rw [hput] at hrun
        obtain ⟨rfl, -⟩ := Result.error.inj hrun
        exact hst.putFile _ _ _ _ hput
  | MPUT =>
    rw [run_release_mput h0 hup] at hrun
    cases hl : (uploadLast st.toUploadStor).run (w, t) with
    | error e' s₁ =>
      rw [hl] at hrun
      obtain ⟨rfl, -⟩ := Result.error.inj hrun
      exact uploadLast_std hst hl
    | ok a s₁ =>
      rw [hl] at hrun
      cases hf : st.mfinish { objKey := s₁.1.filePath, uploadId := s₁.1.mputCtx.uploadId } s₁.2 with
      | ok a t' =>
        simp only [hf] at hrun
        cases hrun
      | error e' t' =>
        simp only [hf] at hrun
        obtain ⟨rfl, -⟩ := Result.error.inj hrun
        exact hst.mfinish _ _ _ _ hf

end

/-- A write that the writer does not take throws a value that is not derived from `std::exception`, or follows a null
    pointer. -/
theorem write_not_taken {S : UploadStor σ} {off : Nat} (h : ¬ w.Takes off data) :
    ∃ e s', (SequenceWriter.write S off data.length data).run (w, t) = .error e s' ∧ e.isStdException = false := by
  by_cases hoff : w.nextWriteOffset = off
  · have hnot : data ≠ [] ∧ w.uptype = .MPUT ∧ w.mputPart = none := by
      by_contra hc
      exact h ⟨hoff, by by_cases hd : data = [] <;> [exact .inl hd; exact .inr fun hm => hc ⟨hd, hm⟩]⟩
    obtain ⟨hdata, hup, hp⟩ := hnot
    have hlen : data.length ≠ 0 := fun h => hdata (List.length_eq_zero_iff.mp h)
    have hderef : (Part.write .mput data data.length : WriterM σ _).run (w, t) = .error .nullDeref (w, t) := by
      simp [Part.write, deref, Prog.run_bind_apply, hp, part]
    have hloop : (writeData S data data.length).run (w, t) = .error .nullDeref (w, t) := by
      rw [writeData, writeLoop]
      simp only [Prog.run_bind_apply, run_fields, hup, Ne.symm hlen, if_false, hderef]
    refine ⟨.nullDeref, (w, t), ?_, rfl⟩
    rw [run_write hoff, hloop]
  · exact ⟨_, _, run_write_reject data hoff, rfl⟩

end Catfs
