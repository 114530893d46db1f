import Catfs.Lib.Behaves
import Catfs.StorLog
import Catfs.Theorems.WriterRun
import Mathlib.Logic.Relation

/-! # The session with the store

The calls that a handle makes follow a protocol: an object is put, or an upload begins, its parts are numbered in the order
they are sent, and it is finished, once. Any call may fail; a number stays with the part that was sent under it
(`upload_session`). -/

namespace Catfs

open Lib WriterM SequenceWriter
open EStateM (Result)

/-! ### The protocol -/

/-- How far a handle is with the store: nothing was taken, an upload is open whose next part has the number `next`, or
    nothing more is sent. -/
inductive Stage where
  | idle
  | sending (uploadId : Str) (next : Nat)
  | closed
  deriving DecidableEq, Repr

namespace Stage

/-- The stage after a call and its outcome, if the protocol allows the call. A part that was refused keeps its number. -/
def next (path : Str) : Stage → StorCall × Bool → Option Stage
  | .idle, (.minit key id, ok) => if key = path then some (if ok then .sending id 0 else .idle) else none
  | .idle, (.putFile key _, _) => if key = path then some .closed else none
  | .sending id n, (.mput key id' m _, _) => if key = path ∧ id' = id ∧ m = n then some (.sending id (n + 1)) else none
  | .sending id _, (.mfinish key id', _) => if key = path ∧ id' = id then some .closed else none
  | _, _ => none

/-- The stage after the calls of `log`. -/
def after (path : Str) (log : Log) : Option Stage := log.foldlM (next path) .idle

variable {path : Str} {log : Log} {p : Stage} {c : StorCall × Bool}

theorem after_append (h : after path log = some p) : after path (log ++ [c]) = p.next path c := by
  rw [after, List.foldlM_append]
  show (after path log).bind _ = _
  rw [h]
  simp

end Stage

/-- The stage in which a writer is. -/
def SequenceWriter.stage (w : SequenceWriter) : Stage :=
  match w.uptype with
  | .PUT => .idle
  | .MPUT => .sending w.mputCtx.uploadId w.mputCtx.partNum

/-- The store keeps a record of the calls of the handle, with their outcomes. What it answers, and which calls fail, is left
    open. -/
structure UploadStor.Records {σ : Type} (S : UploadStor σ) (log : σ → Log) : Prop where
  minit : ∀ req t, match S.minit req t with
    | .ok r t' => log t' = log t ++ [(.minit req.objKey r.uploadId, true)]
    | .error _ t' => ∃ id, log t' = log t ++ [(.minit req.objKey id, false)]
  mput : ∀ req t, ∃ body ok, log (endState (S.mput req t)) = log t ++ [(.mput req.objKey req.uploadId req.partNum body, ok)]
  mfinish : ∀ req t, ∃ ok, log (endState (S.mfinish req t)) = log t ++ [(.mfinish req.objKey req.uploadId, ok)]
  putFile : ∀ req t, ∃ body ok, log (endState (S.putFile req t)) = log t ++ [(.putFile req.objKey body, ok)]

variable {σ α : Type} {S : UploadStor σ} {log : σ → Log} {path : Str}

/-- The calls so far led to the stage of the writer. -/
structure AtStage (log : σ → Log) (path : Str) (s : SequenceWriter × σ) : Prop where
  file : s.1.filePath = path
  stage : Stage.after path (log s.2) = some s.1.stage

/-- And an upload is open. -/
structure Sending (log : σ → Log) (path : Str) (s : SequenceWriter × σ) : Prop extends AtStage log path s where
  up : s.1.uptype = .MPUT

/-- An upload was opened, and the fields of the writer do not show it yet. -/
structure Begun (log : σ → Log) (path : Str) (r : MInitResp) (s : SequenceWriter × σ) : Prop where
  file : s.1.filePath = path
  stage : Stage.after path (log s.2) = some (.sending r.uploadId 0)

/-- From states with `J` the program returns with `J`, and however it ends the calls lead to the stage of the writer. -/
abbrev Lawful (log : σ → Log) (path : Str) (J : SequenceWriter × σ → Prop) (p : WriterM σ α) : Prop :=
  Behaves J p.run (fun _ => J) fun _ => AtStage log path

/-! ### Steps that send nothing -/

theorem behaves_update {P Q : SequenceWriter × σ → Prop} {E : Err → SequenceWriter × σ → Prop} {f : SequenceWriter → SequenceWriter}
    (h : ∀ w t, P (w, t) → Q (f w, t)) : Behaves P (update f : WriterM σ _).run (fun _ => Q) E := by
  intro s hs
  rw [run_update]
  exact h s.1 s.2 hs

theorem behaves_fields {P : SequenceWriter × σ → Prop} {E : Err → SequenceWriter × σ → Prop} :
    Behaves P (fields : WriterM σ _).run (fun w s => s.1 = w ∧ P s) E := by
  intro s hs
  rw [run_fields]
  exact ⟨rfl, hs⟩

theorem stage_setPart {w : SequenceWriter} {slot : Slot} {p : Option Part} : (w.setPart slot p).stage = w.stage := by
  cases slot <;> rfl

theorem AtStage.setPart {w : SequenceWriter} {t : σ} {slot : Slot} {p : Option Part} (h : AtStage log path (w, t)) :
    AtStage log path (w.setPart slot p, t) where
  file := by cases slot <;> exact h.file
  stage := by
    rw [stage_setPart]
    exact h.stage

/-- A condition that only gives the stage, and does not speak of the parts. -/
structure OnStage (log : σ → Log) (path : Str) (J : SequenceWriter × σ → Prop) : Prop where
  inStage : ∀ s, J s → AtStage log path s
  setPart : ∀ w t slot p, J (w, t) → J (w.setPart slot p, t)

theorem onStage_sending : OnStage log path (Sending log path) :=
  ⟨fun _ h => h.toAtStage, fun _ _ slot _ h => ⟨h.toAtStage.setPart, by cases slot <;> exact h.up⟩⟩

section
variable {J : SequenceWriter × σ → Prop} (hJ : OnStage log path J)
include hJ

theorem lawful_setPart {slot : Slot} {p : SequenceWriter → Option Part} : Lawful log path J (update fun w => w.setPart slot (p w)) :=
  behaves_update fun w t h => hJ.setPart w t slot (p w) h

theorem behaves_deref {slot : Slot} : Behaves J (deref slot).run (fun p s => s.1.part slot = some p ∧ J s) fun _ =>
    AtStage log path := by
  intro s hs
  cases hp : s.1.part slot with
  | none =>
    have hd : (deref slot : WriterM σ _).run s = .error .nullDeref s := by simp [deref, Prog.run_bind_apply, hp]
    rw [hd]
    exact hJ.inStage s hs
  | some p =>
    rw [run_deref hp]
    exact ⟨hp, hs⟩

theorem lawful_partWrite {slot : Slot} {data : List Byte} {size : Nat} : Lawful log path J (Part.write slot data size) := by
  refine Prog.behaves_bind (behaves_deref hJ) fun p => Prog.behaves_ite (.pure fun _ hs => hs.2) ?_
  have hcopy : Behaves (fun s : SequenceWriter × σ => s.1.part slot = some p ∧ J s)
      (Prog.lift (.memcpy p.partSize p.woff size data.length)
        (modify fun s => (s.1.setPart slot (some (p.append data size)), s.2)) : WriterM σ Unit).run
      (fun _ => J) fun _ => AtStage log path := by
    intro s hs
    rw [Prog.run_lift]
    exact hJ.setPart s.1 s.2 slot _ hs.2
  exact Prog.behaves_bind hcopy fun _ => .pure fun _ hs => hs

theorem lawful_partCopy {slot src : Slot} {off size : Nat} : Lawful log path J (Part.copy slot src off size) :=
  Prog.behaves_bind (behaves_deref hJ) fun _ =>
    Prog.behaves_bind ((lawful_partWrite hJ).pre fun _ hs => hs.2) fun _ => .pure fun _ hs => hs

end

/-! ### The calls -/

section
variable (hS : S.Records log)
include hS

/-- A part is sent under the next number, whether the store takes it or not. -/
theorem behaves_uploadPart {slot : Slot} : Behaves (fun s => Sending log path s ∧ ∃ p, s.1.part slot = some p) (uploadPart S slot).run
    (fun _ => Sending log path) fun _ => AtStage log path := by
  rintro ⟨w, t⟩ ⟨hs, p, hp⟩
  obtain ⟨body, ok, hlog⟩ := hS.mput (w.mputReq p) t
  have hup : w.uptype = .MPUT := hs.up
  have hbefore : w.stage = .sending w.mputCtx.uploadId w.mputCtx.partNum := by rw [stage, hup]
  have hafter : w.nextPart.stage = .sending w.mputCtx.uploadId (w.mputCtx.partNum + 1) := by rw [stage, nextPart, hup]
  have hnext : Stage.after path (log (endState (S.mput (w.mputReq p) t))) = some w.nextPart.stage := by
    rw [hlog, Stage.after_append hs.stage, hbefore, hafter]
    exact if_pos ⟨hs.file, rfl, rfl⟩
  rw [run_uploadPart slot hp]
  cases hr : S.mput (w.mputReq p) t with
  | ok _ t' =>
    rw [hr] at hnext
    exact ⟨⟨hs.file, hnext⟩, hup⟩
  | error e t' =>
    rw [hr] at hnext
    exact ⟨hs.file, hnext⟩

theorem lawful_uploadFull : Lawful log path (Sending log path) (uploadFull S) := by
  refine Prog.behaves_bind (behaves_deref onStage_sending) fun p => Prog.behaves_ite ?_ (.pure fun _ hs => hs.2)
  refine Prog.behaves_bind ((behaves_uploadPart hS).pre fun s hs => ⟨hs.2, p, hs.1⟩) fun _ =>
    Prog.behaves_bind (behaves_deref onStage_sending) fun q => ?_
  exact (lawful_setPart onStage_sending).pre fun _ hs => hs.2

theorem lawful_copyLoop (fuel copied total : Nat) : Lawful log path (Sending log path) (copyLoop S fuel copied total) := by
  induction fuel generalizing copied with
  | zero =>
    rw [copyLoop]
    exact Prog.behaves_ite (.throw fun _ hs => hs.toAtStage) (.pure fun _ hs => hs)
  | succ fuel ih =>
    rw [copyLoop]
    refine Prog.behaves_ite ?_ (.pure fun _ hs => hs)
    exact Prog.behaves_bind (lawful_partCopy onStage_sending) fun _ => Prog.behaves_bind (lawful_uploadFull hS) fun _ => ih _

/-- A handle that staged its data so far begins an upload, or stays as it was when the store refuses. -/
theorem behaves_switchMputMode : Behaves (fun s => AtStage log path s ∧ s.1.uptype = .PUT) (switchMputMode S).run
    (fun _ => Sending log path) fun _ => AtStage log path := by
  refine Prog.behaves_bind behaves_fields fun w => ?_
  -- between the call and the change of the fields the writer is a stage behind
  have hinit : Behaves (fun s : SequenceWriter × σ => s.1 = w ∧ AtStage log path s ∧ s.1.uptype = .PUT)
      (call .minit (S.minit { objKey := w.filePath })).run
      (fun r => Begun log path r) fun _ => AtStage log path := by
    rintro ⟨w', t⟩ ⟨rfl, hs, hup⟩
    have hidle : w'.stage = .idle := by rw [stage, show w'.uptype = .PUT from hup]
    have hlog := hS.minit { objKey := w'.filePath } t
    rw [run_call]
    cases hr : S.minit { objKey := w'.filePath } t with
    | ok r t' =>
      rw [hr] at hlog
      refine ⟨hs.file, ?_⟩
      show Stage.after path (log t') = _
      rw [show log t' = _ from hlog, Stage.after_append hs.stage, hidle]
      exact if_pos hs.file
    | error e t' =>
      rw [hr] at hlog
      obtain ⟨id, hlog⟩ := hlog
      refine ⟨hs.file, ?_⟩
      show Stage.after path (log t') = _
      rw [hlog, Stage.after_append hs.stage, hidle]
      exact if_pos hs.file
  have hdrop : Lawful log path (Sending log path) (update (·.setPart .put none)) := lawful_setPart onStage_sending
  refine Prog.behaves_bind hinit fun r => ?_
  have hpart : Behaves (Begun log path r) (update fun w => { w with mputPart := some (Part.new r.partSize) }).run
      (fun _ => Begun log path r) fun _ => AtStage log path :=
    behaves_update fun _ _ h => ⟨h.file, h.stage⟩
  have hmode : Behaves (Begun log path r) (update fun w => { w with uptype := .MPUT }).run
      (fun _ s => Begun log path r s ∧ s.1.uptype = .MPUT) fun _ => AtStage log path :=
    behaves_update fun _ _ h => ⟨⟨h.file, h.stage⟩, rfl⟩
  have hnum : Behaves (fun s => Begun log path r s ∧ s.1.uptype = .MPUT)
      (update fun w => { w with mputCtx := { w.mputCtx with partNum := 0 } }).run
      (fun _ s => (Begun log path r s ∧ s.1.uptype = .MPUT) ∧ s.1.mputCtx.partNum = 0) fun _ => AtStage log path :=
    behaves_update fun _ _ h => ⟨⟨⟨h.1.file, h.1.stage⟩, h.2⟩, rfl⟩
  have hid : Behaves (fun s => (Begun log path r s ∧ s.1.uptype = .MPUT) ∧ s.1.mputCtx.partNum = 0)
      (update fun w => { w with mputCtx := { w.mputCtx with uploadId := r.uploadId } }).run
      (fun _ => Sending log path) fun _ => AtStage log path := by
    refine behaves_update fun w t h => ?_
    obtain ⟨⟨⟨hfile, hstage⟩, hup⟩, hzero⟩ := h
    have hup' : w.uptype = .MPUT := hup
    have hzero' : w.mputCtx.partNum = 0 := hzero
    refine ⟨⟨hfile, hstage.trans (congrArg some ?_)⟩, hup⟩
    rw [stage]
    simp only [hup', hzero']
  refine Prog.behaves_bind hpart fun _ => Prog.behaves_bind hmode fun _ => Prog.behaves_bind hnum fun _ =>
    Prog.behaves_bind hid fun _ => Prog.behaves_bind (behaves_deref onStage_sending) fun _ => Prog.behaves_bind
    ((behaves_deref onStage_sending).pre fun _ hs => hs.2) fun p => Prog.behaves_ite ?_ ?_
  · exact Prog.behaves_bind ((behaves_uploadPart hS).pre fun s hs => ⟨hs.2, p, hs.1⟩) fun _ => hdrop
  · exact Prog.behaves_bind ((lawful_copyLoop hS _ _ _).pre fun _ hs => hs.2) fun _ => hdrop

theorem lawful_writeLoop (fuel size wbytes total : Nat) (data : List Byte) :
    Lawful log path (AtStage log path) (writeLoop S fuel data size wbytes total) := by
  induction fuel generalizing size wbytes data with
  | zero =>
    rw [writeLoop]
    exact Prog.behaves_ite (.pure fun _ hs => hs) (.throw fun _ hs => hs)
  | succ fuel ih =>
    rw [writeLoop]
    refine Prog.behaves_ite (.pure fun _ hs => hs) (Prog.behaves_bind behaves_fields fun w => ?_)
    cases hup : w.uptype with
    | PUT =>
      have hstaging : OnStage log path fun s => AtStage log path s ∧ s.1.uptype = .PUT :=
        ⟨fun _ h => h.1, fun _ _ slot _ h => ⟨h.1.setPart, by cases slot <;> exact h.2⟩⟩
      have hopen : Lawful log path (fun s => AtStage log path s ∧ s.1.uptype = .PUT) openPutPart := lawful_setPart hstaging
      refine Prog.behaves_bind (hopen.pre fun s hs => ⟨hs.2, hs.1 ▸ hup⟩) fun _ =>
        Prog.behaves_bind (lawful_partWrite hstaging) fun _ => Prog.behaves_bind (behaves_deref hstaging) fun p => ?_
      refine Prog.behaves_ite (Prog.behaves_ite ?_ (.pure fun _ hs => hs.2.1)) (Prog.behaves_ite (.pure fun _ hs => hs.2.1) ?_)
      · exact Prog.behaves_bind ((behaves_switchMputMode hS).pre fun _ hs => hs.2) fun _ => (ih _ _ _).pre fun _ hs => hs.toAtStage
      · exact (ih _ _ _).pre fun _ hs => hs.2.1
    | MPUT =>
      refine Prog.behaves_bind ((lawful_partWrite onStage_sending).pre fun s hs => ⟨hs.2, hs.1 ▸ hup⟩) fun _ =>
        Prog.behaves_bind (lawful_uploadFull hS) fun _ => (ih _ _ _).pre fun _ hs => hs.toAtStage

theorem lawful_write (off size : Nat) (data : List Byte) : Lawful log path (AtStage log path) (write S off size data) := by
  refine Prog.behaves_bind behaves_fields fun w => Prog.behaves_ite (.throw fun _ hs => hs.2) ?_
  have hadvance : Lawful log path (AtStage log path) (update fun w => { w with nextWriteOffset := w.nextWriteOffset + size }) :=
    behaves_update fun w t h => ⟨h.file, h.stage⟩
  exact Prog.behaves_bind ((lawful_writeLoop hS _ _ _ _ _).pre fun _ hs => hs.2) fun _ =>
    Prog.behaves_bind hadvance fun _ => .pure fun _ hs => hs

theorem lawful_uploadLast : Lawful log path (Sending log path) (uploadLast S) := by
  refine Prog.behaves_bind behaves_fields fun w => ?_
  cases hp : w.mputPart with
  | none => exact .pure fun _ hs => hs.2
  | some p =>
    refine Prog.behaves_ite ?_ (.pure fun _ hs => hs.2)
    refine Prog.behaves_bind ((behaves_uploadPart hS).pre fun s hs => ⟨hs.2, p, ?_⟩) fun _ => lawful_setPart onStage_sending
    rw [hs.1]
    exact hp

/-- A release of an open upload finishes it, once, or ends before. -/
theorem behaves_finishMput : Behaves (Sending log path) (finishMput S).run (fun _ s => Stage.after path (log s.2) = some .closed)
    fun _ s => ∃ p, Stage.after path (log s.2) = some p := by
  have hlast : Behaves (Sending log path) (uploadLast S).run (fun _ => Sending log path) fun _ s =>
      ∃ p, Stage.after path (log s.2) = some p := (lawful_uploadLast hS).post (fun _ _ h => h) fun _ _ h => ⟨_, h.stage⟩
  refine Prog.behaves_bind hlast fun _ => Prog.behaves_bind behaves_fields fun w => ?_
  rintro ⟨w', t⟩ ⟨rfl, hs⟩
  obtain ⟨ok, hlog⟩ := hS.mfinish { objKey := w'.filePath, uploadId := w'.mputCtx.uploadId } t
  have hup : w'.uptype = .MPUT := hs.up
  have hbefore : w'.stage = .sending w'.mputCtx.uploadId w'.mputCtx.partNum := by rw [stage, hup]
  have hnext : Stage.after path (log (endState (S.mfinish { objKey := w'.filePath, uploadId := w'.mputCtx.uploadId } t))) =
      some .closed := by
    rw [hlog, Stage.after_append hs.stage, hbefore]
    exact if_pos ⟨hs.file, rfl⟩
  rw [run_call]
  cases hr : S.mfinish { objKey := w'.filePath, uploadId := w'.mputCtx.uploadId } t with
  | ok _ t' =>
    rw [hr] at hnext
    exact hnext
  | error e t' =>
    rw [hr] at hnext
    exact ⟨_, hnext⟩

theorem behaves_uploadFile : Behaves (fun s => AtStage log path s ∧ s.1.uptype = .PUT) (uploadFile S).run
    (fun _ s => ∃ p, Stage.after path (log s.2) = some p) fun _ s => ∃ p, Stage.after path (log s.2) = some p := by
  refine Prog.behaves_bind behaves_fields fun w => ?_
  cases hp : w.putPart with
  | none => exact .pure fun _ hs => ⟨_, hs.2.1.stage⟩
  | some p =>
    rintro ⟨w', t⟩ ⟨rfl, hs, hup⟩
    obtain ⟨body, ok, hlog⟩ := hS.putFile { objKey := w'.filePath, buf := some p.buf, size := p.len, metaData := [] } t
    have hidle : w'.stage = .idle := by rw [stage, show w'.uptype = .PUT from hup]
    have hnext : Stage.after path (log (endState (S.putFile { objKey := w'.filePath, buf := some p.buf, size := p.len, metaData := [] } t))) =
        some .closed := by
      rw [hlog, Stage.after_append hs.stage, hidle]
      exact if_pos hs.file
    rw [run_call]
    cases hr : S.putFile { objKey := w'.filePath, buf := some p.buf, size := p.len, metaData := [] } t with
    | ok _ t' =>
      rw [hr] at hnext
      exact ⟨_, hnext⟩
    | error e t' =>
      rw [hr] at hnext
      exact ⟨_, hnext⟩

theorem behaves_release : Behaves (AtStage log path) (release S).run (fun _ s => ∃ p, Stage.after path (log s.2) = some p)
    fun _ s => ∃ p, Stage.after path (log s.2) = some p := by
  refine Prog.behaves_bind behaves_fields fun w => Prog.behaves_ite (.pure fun _ hs => ⟨_, hs.2.stage⟩) ?_
  cases hup : w.uptype with
  | PUT => exact (behaves_uploadFile hS).pre fun s hs => ⟨hs.2, hs.1 ▸ hup⟩
  | MPUT => exact ((behaves_finishMput hS).post (fun _ _ h => ⟨_, h⟩) fun _ _ h => h).pre fun s hs => ⟨hs.2, hs.1 ▸ hup⟩

end

/-! ### The runs -/

/-- A write on the handle, however it ends, or calls of others, which are not in its record. -/
inductive HandleUse (S : UploadStor σ) (log : σ → Log) : SequenceWriter × σ → SequenceWriter × σ → Prop where
  | write (s : SequenceWriter × σ) (off size : Nat) (data : List Byte) :
      HandleUse S log s (endState ((SequenceWriter.write S off size data).run s))
  | others (w : SequenceWriter) (t t' : σ) (h : log t' = log t) : HandleUse S log (w, t) (w, t')

theorem HandleUse.inStage (hS : S.Records log) {s s' : SequenceWriter × σ} (h : HandleUse S log s s') (hs : AtStage log path s) :
    AtStage log path s' := by
  cases h with
  | write s off size data => exact (lawful_write hS off size data).endState hs
  | others w t t' h =>
    refine ⟨hs.file, ?_⟩
    show Stage.after path (log t') = _
    rw [h]
    exact hs.stage

/-- Over every run of writes on a handle, of any sizes and at any offsets, over a store that may fail at any call and is
    used by others as well, and in the release that ends it: the calls that the handle makes follow the protocol, and
    before the release the writer is in the stage that they lead to. A release that returns finishes an upload into which
    bytes were accepted. -/
theorem upload_session (hS : S.Records log) {t : σ} (h0 : log t = []) {s : SequenceWriter × σ}
    (h : Relation.ReflTransGen (HandleUse S log) (.new path, t) s) :
    Stage.after path (log s.2) = some s.1.stage ∧
      (∃ p, Stage.after path (log (endState ((release S).run s)).2) = some p) ∧
      ∀ s', (release S).run s = .ok () s' → s.1.uptype = .MPUT → s.1.nextWriteOffset ≠ 0 →
        Stage.after path (log s'.2) = some .closed := by
  have hs : AtStage log path s := by
    induction h with
    | refl =>
      refine ⟨rfl, ?_⟩
      rw [h0]
      rfl
    | tail _ hu ih => exact hu.inStage hS ih
  refine ⟨hs.stage, (behaves_release hS).endState hs, fun s' hr hup hne => ?_⟩
  have hrun : (release S).run s = (finishMput S).run s := by
    simp only [release, finishWrite, Prog.run_bind_apply, run_fields, if_neg hne, hup]
  rw [hrun] at hr
  exact (behaves_finishMput hS).ok ⟨hs, hup⟩ hr

theorem endState_answer {P : Policy} {c : StorCall} {a : α} {l : Log} : endState (P.answer c a l) = l ++ [(c, !P.fails l.length)] := by
  rw [Policy.answer]
  cases P.fails l.length <;> rfl

/-- A store that is its record. -/
theorem records_policy (P : Policy) : P.stor.Records id where
  minit req l := by cases hf : P.fails l.length <;> simp [Policy.stor, Policy.answer, hf]
  mput _ _ := ⟨_, _, endState_answer⟩
  mfinish _ _ := ⟨_, endState_answer⟩
  putFile _ _ := ⟨_, _, endState_answer⟩

/-- 8 MiB were accepted, and the first part of the upload that the next byte began was refused. -/
def partRefused : SequenceWriter × Log :=
  endState ((write (Policy.s3 (· == 1)).stor MB_8 1 [0]).run
    (endState ((write (Policy.s3 (· == 1)).stor 0 MB_8 (List.replicate MB_8 0)).run (.new ['a'], []))))

theorem upload_session_partRefused : Stage.after ['a'] partRefused.2 = some partRefused.1.stage ∧
    (∃ p, Stage.after ['a'] (endState ((release (Policy.s3 (· == 1)).stor).run partRefused)).2 = some p) ∧
    ∀ s', (release (Policy.s3 (· == 1)).stor).run partRefused = .ok () s' → partRefused.1.uptype = .MPUT →
      partRefused.1.nextWriteOffset ≠ 0 → Stage.after ['a'] s'.2 = some .closed :=
  upload_session (records_policy (.s3 (· == 1))) (show id ([] : Log) = [] from rfl)
    ((Relation.ReflTransGen.refl.tail (.write _ _ _ _)).tail (.write _ _ _ _))

end Catfs
