import Catfs.Theorems.FuseReplies
import Catfs.Theorems.HandlesInv
import Catfs.Theorems.WriteFailures

/-! # A file that was written and closed

A file is opened, written and flushed through one handle, and every reply reports success. The flush sends nothing and
never fails: what the writer still holds goes to the store in the release, whose reply no application sees. So the object
is the accepted data exactly when the store takes the calls of that release, or the object was these bytes before. -/

namespace Catfs

open Lib CatFS MetaImpl SequenceWriter FuseAdapter
open EStateM (Result)

/-! ### The life of a handle -/

/-- What happens between two requests on a handle: the handle stays as it is, and the calls that reach the store, of this
    mount or of another, send no part under its upload id. -/
structure Elsewhere (P : Policy) (hno : HandleID) (s s' : FuseAdapter Log) : Prop where
  file : s'.catfs.openFiles hno = s.catfs.openFiles hno
  calls : ∃ new, s'.catfs.world.stor = s.catfs.world.stor ++ new ∧ ∀ file, s.catfs.openFiles hno = some file →
    file.writer.uptype = .MPUT → ∀ c ∈ new, ¬ c.1.PartOf file.writer.mputCtx.uploadId
  issued : Issued P s'.catfs.world.stor

inductive Phase where
  | writing
  | flushed
  deriving DecidableEq

/-- `hno` was opened, the writes on it were accepted with the data `acc`, and, once it is `flushed`, so was its flush: every
    reply reports success. -/
inductive Session (opt : MetaOpt) (st : Stor Log) (P : Policy) (hno : HandleID) : Phase → FuseAdapter Log → List Byte → Prop where
  | opened {s s' : FuseAdapter Log} {ino : InodeID} {hasWrote : Bool} (run : openHandler ino hasWrote s = .ok () s')
      (reply : s'.replies = s.replies ++ [.opened hno]) (issued : Issued P s'.catfs.world.stor) :
      Session opt st P hno .writing s' []
  | created {s s' : FuseAdapter Log} {parent : InodeID} {name : Str} {mode : Mode} {hasWrote : Bool} {inode : Inode}
      (run : create opt st parent name mode hasWrote s = .ok () s') (reply : s'.replies = s.replies ++ [.created inode hno])
      (issued : Issued P s'.catfs.world.stor) : Session opt st P hno .writing s' []
  | write {s s' : FuseAdapter Log} {acc : List Byte} {off n : Nat} {data : List Byte} (h : Session opt st P hno .writing s acc)
      (short : data.length < 2 ^ 31) (run : FuseAdapter.write st hno off data s = .ok () s')
      (reply : s'.replies = s.replies ++ [.write n]) : Session opt st P hno .writing s' (acc ++ data)
  | writeBuf {s s' : FuseAdapter Log} {acc : List Byte} {off n : Nat} {data : List Byte} (h : Session opt st P hno .writing s acc)
      (short : data.length < 2 ^ 31) (run : FuseAdapter.writeBuf st hno off data s = .ok () s')
      (reply : s'.replies = s.replies ++ [.write n]) : Session opt st P hno .writing s' (acc ++ data)
  | flush {s s' : FuseAdapter Log} {acc : List Byte} (h : Session opt st P hno .writing s acc)
      (run : FuseAdapter.flush hno s = .ok () s') (reply : s'.replies = s.replies ++ [.err 0]) :
      Session opt st P hno .flushed s' acc
  | elsewhere {phase : Phase} {s s' : FuseAdapter Log} {acc : List Byte} (h : Session opt st P hno phase s acc)
      (other : Elsewhere P hno s s') : Session opt st P hno phase s' acc

/-- The handle is open, with `acc` in its writer and the store. -/
structure HeldBy (P : Policy) (hno : HandleID) (fs : CatFS Log) (acc : List Byte) (file : OpenFile) : Prop where
  opened : fs.openFiles hno = some file
  holds : HandleHolds P (file.writer, fs.world.stor) acc
  path : file.writer.filePath = file.rtfile.path

section
variable {opt : MetaOpt} {st : Stor Log} {P : Policy} {hno : HandleID} {phase : Phase} {s s' : FuseAdapter Log} {acc : List Byte}

/-! ### Requests that succeeded -/

/-- A reply that is no error comes from the body of the handler. -/
theorem of_catching_reply {clauses : Err → Option Nat} {body : FuseM Log Unit} {l : List FuseReply} {r : FuseReply}
    (h : catching clauses body s = .ok () s') (hr : s'.replies = l ++ [r]) (hne : ∀ code, r ≠ .err code) :
    body s = .ok () s' := by
  cases hb : body s with
  | ok _ s₁ => exact (catching_ok hb).symm.trans h
  | error e s₁ =>
    exfalso
    cases hc : clauses e with
    | none => cases (catching_none hb hc).symm.trans h
    | some code =>
      have hs' := (catching_some hb hc).symm.trans h
      cases hs'
      exact hne code (List.singleton_inj.mp (List.append_inj_right' hr rfl)).symm

theorem of_onCatfs_bind {α β : Type} {m : FsM Log α} {f : α → FuseM Log β} {b : β} (h : (onCatfs m >>= f) s = .ok b s') :
    ∃ a fs, m s.catfs = .ok a fs ∧ f a { s with catfs := fs } = .ok b s' := by
  obtain ⟨a, s₁, hm, hf⟩ := of_bind_ok h
  rw [onCatfs, zoom] at hm
  cases hr : m s.catfs with
  | ok a' fs =>
    rw [hr] at hm
    cases hm
    exact ⟨a, fs, rfl, hf⟩
  | error e fs =>
    rw [hr] at hm
    cases hm

/-- The reply of the handle and the state that it was opened in. -/
theorem HeldBy.fresh {fs : CatFS Log} {ino : InodeID} {hasWrote : Bool} {fs' : CatFS Log}
    (hopen : openfile ino hasWrote fs = .ok hno fs') (hissued : Issued P fs'.world.stor) : ∃ file, HeldBy P hno fs' [] file := by
  obtain ⟨file, hf, hw⟩ := openfile_opened hopen
  refine ⟨file, hf, ?_, by rw [hw]; rfl⟩
  rw [hw]
  exact ⟨.new, rfl, hissued⟩

theorem openHandler_held {ino : InodeID} {hasWrote : Bool} (hrun : openHandler ino hasWrote s = .ok () s')
    (hreply : s'.replies = s.replies ++ [.opened hno]) (hissued : Issued P s'.catfs.world.stor) :
    ∃ file, HeldBy P hno s'.catfs [] file := by
  have hbody := of_catching_reply hrun hreply (fun _ => nofun)
  obtain ⟨hno', fs, hopen, hrest⟩ := of_onCatfs_bind hbody
  cases hrest
  have hhno : hno' = hno := by
    have := List.singleton_inj.mp (List.append_inj_right' hreply rfl)
    exact FuseReply.opened.inj this
  exact HeldBy.fresh (hhno ▸ hopen) hissued

theorem create_held {parent : InodeID} {name : Str} {mode : Mode} {hasWrote : Bool} {inode : Inode}
    (hrun : create opt st parent name mode hasWrote s = .ok () s') (hreply : s'.replies = s.replies ++ [.created inode hno])
    (hissued : Issued P s'.catfs.world.stor) : ∃ file, HeldBy P hno s'.catfs [] file := by
  have hbody := of_catching_reply hrun hreply (fun _ => nofun)
  obtain ⟨a, fs, hcreate, hrest⟩ := of_onCatfs_bind hbody
  obtain ⟨i, s₁, hi, hrest⟩ := of_bind_ok hrest
  cases hi
  obtain ⟨hno', fs', hopen, hrest⟩ := of_onCatfs_bind hrest
  obtain ⟨i, s₂, hi, hrest⟩ := of_bind_ok hrest
  cases hi
  cases hrest
  have hhno : hno' = hno := by
    have := List.singleton_inj.mp (List.append_inj_right' hreply rfl)
    exact (FuseReply.created.inj this).2
  exact HeldBy.fresh (hhno ▸ hopen) hissued

/-- The step lemma of a write that returned. -/
theorem HeldBy.wrote (hst : st.toUploadStor = P.stor) {fs fs' : CatFS Log} {file : OpenFile} (h : HeldBy P hno fs acc file)
    {off n : Nat} {data : List Byte} (hshort : data.length < 2 ^ 31) (hrun : writefile st hno off data fs = .ok n fs') :
    ∃ file', HeldBy P hno fs' (acc ++ data) file' := by
  have hcases := exec_cases ⟨off, data, hshort⟩ h.holds
  rw [WriteReq.exec, ← hst] at hcases
  dsimp only at hcases
  cases hw : (SequenceWriter.write st.toUploadStor off data.length data).run (file.writer, fs.world.stor) with
  | ok k s₁ =>
    rw [hw] at hcases
    obtain ⟨hf, hlog⟩ := writefile_wrote h.opened hw hrun
    cases hcases with
    | accepted holds path =>
      refine ⟨_, hf, ?_, ?_⟩
      · rw [hlog]
        exact holds
      · exact path.trans h.path
  | error e s₁ => cases (writefile_error h.opened hw).symm.trans hrun

theorem HeldBy.elsewhere {file : OpenFile} (h : HeldBy P hno s.catfs acc file) (he : Elsewhere P hno s s') :
    HeldBy P hno s'.catfs acc file := by
  obtain ⟨new, hlog, hnew⟩ := he.calls
  refine ⟨he.file.trans h.opened, ⟨?_, h.holds.offset, he.issued⟩, h.path⟩
  show Staged P file.writer s'.catfs.world.stor acc
  rw [hlog]
  exact h.holds.staged.frame (hnew file h.opened)

/-- The run lemma: a handle whose requests all succeeded holds the data of its writes. -/
theorem Session.held (hst : st.toUploadStor = P.stor) (h : Session opt st P hno phase s acc) :
    ∃ file, HeldBy P hno s.catfs acc file := by
  induction h with
  | opened run reply issued => exact openHandler_held run reply issued
  | created run reply issued => exact create_held run reply issued
  | write _ short run reply ih =>
    obtain ⟨file, hfile⟩ := ih
    have hbody := of_catching_reply run reply (fun _ => nofun)
    obtain ⟨n, fs, hwrite, hrest⟩ := of_onCatfs_bind hbody
    cases hrest
    exact hfile.wrote hst short hwrite
  | writeBuf _ short run reply ih =>
    obtain ⟨file, hfile⟩ := ih
    have hbody := of_catching_reply run reply (fun _ => nofun)
    obtain ⟨res, s₁, hbufs, hrest⟩ := of_bind_ok hbody
    obtain ⟨n, fs, hwrite, hdone⟩ := of_onCatfs_bind hbufs
    rw [writeBufs] at hdone
    obtain ⟨-, rfl⟩ := Result.ok.inj hdone
    cases hrest
    exact hfile.wrote hst short hwrite
  | flush _ run _ ih =>
    cases run
    exact ih
  | elsewhere _ other ih =>
    obtain ⟨file, hfile⟩ := ih
    exact ⟨file, hfile.elsewhere other⟩

/-! ### The release -/

/-- What a release leaves in the store, whatever it replies. -/
theorem release_stor {file : OpenFile} (hf : s.catfs.openFiles hno = some file) :
    (endState (FuseAdapter.release st hno s)).catfs.world.stor =
      (endState ((SequenceWriter.release st.toUploadStor).run (file.writer, s.catfs.world.stor))).2 := by
  cases hw : (SequenceWriter.release st.toUploadStor).run (file.writer, s.catfs.world.stor) with
  | ok _ s₁ =>
    have hbody : (onCatfs (releaseFile st hno) >>= fun _ => reply (.err 0)) s =
        reply (.err 0) { s with catfs := (s.catfs.setFile hno { file with writer := s₁.1, isWriting := false }).setStor s₁.2 } :=
      bind_ok (zoom_ok (releaseFile_ok hf hw))
    rw [FuseAdapter.release, catching_ok hbody]
    rfl
  | error e s₁ =>
    have hbody : (onCatfs (releaseFile st hno) >>= fun _ => reply (.err 0)) s =
        .error e { s with catfs := (s.catfs.setFile hno { file with writer := s₁.1 }).setStor s₁.2 } :=
      bind_error (zoom_error (releaseFile_error hf hw))
    cases hc : catchStd e with
    | some code =>
      rw [FuseAdapter.release, catching_some hbody hc]
      rfl
    | none =>
      rw [FuseAdapter.release, catching_none hbody hc]
      rfl

end

/-! ### One byte -/

/-- A store over the log that refuses the calls `fails`. -/
def flaky (fails : Nat → Bool) : Stor Log := { s3Stor Log.client with toUploadStor := (Policy.s3 fails).stor }

/-- A new mount over an empty bucket. -/
def emptyMount : FuseAdapter Log :=
  { catfs := .start ⟨0, 0, 60⟩ ⟨0, 0⟩ [] ⟨0, 0⟩ noGarbage, openDirs := fun _ => none, replies := [] }

section
variable (fails : Nat → Bool)

def createF : FuseM Log Unit := FuseAdapter.create ⟨0, 0, 60⟩ (flaky fails) ROOT_INODE_ID ['f'] S_IFREG false

def writeByte : FuseM Log Unit := FuseAdapter.write (flaky fails) 0 0 [1]

def fCreated : FuseAdapter Log := endState (createF fails emptyMount)

def fWritten : FuseAdapter Log := endState (writeByte fails (fCreated fails))

def fFlushed : FuseAdapter Log := endState (FuseAdapter.flush 0 (fWritten fails))

/-- The file was created, one byte was written to it and it was flushed, all with success. -/
structure ByteAccepted : Prop where
  created : returned (createF fails emptyMount) = true
  written : returned (writeByte fails (fCreated fails)) = true
  replies : (fWritten fails).replies = (fCreated fails).replies ++ [.write 1]
  opened : (fCreated fails).replies = [.created ((fCreated fails).catfs.world.cache.heap 1).inode 0]
  log : (fCreated fails).catfs.world.stor = [(.putFile ['f'] [], true)]

end

theorem ByteAccepted.session {fails : Nat → Bool} (h : ByteAccepted fails) :
    Session ⟨0, 0, 60⟩ (flaky fails) (.s3 fails) 0 .flushed (fFlushed fails) [1] := by
  have hissued : Issued (.s3 fails) (fCreated fails).catfs.world.stor := by
    rw [h.log]
    intro key id n body b hc
    cases List.mem_singleton.mp hc
  exact .flush (.write (.created (unit_of_returned h.created) h.opened hissued) (by decide : [(1 : Byte)].length < 2 ^ 31)
    (unit_of_returned h.written) h.replies) rfl rfl

end Catfs
