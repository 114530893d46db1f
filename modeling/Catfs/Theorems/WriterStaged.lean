import Catfs.Theorems.WriterRun
import Catfs.StorLog

/-! # What a handle holds

The bytes accepted on a handle are, in order, those uploaded under its upload id and those staged in the
part of the current mode (`Staged`). A `write` keeps this (`write_outcome`): it is accepted and appends
its data, or `minit` failed and nothing changed, or an `mput` failed. In the last case the handle no longer
holds what it held before the call: the first part is given up when its upload fails, and the data of the
call stays staged when the upload of the part it filled fails. -/

namespace Catfs

open Lib SequenceWriter
open EStateM (Result)

/-! ### Parts of a log -/

namespace Log

theorem parts_append {log new : Log} {id : Str} : (log ++ new : Log).parts id = log.parts id ++ Log.parts new id := by
  simp [Log.parts, List.filterMap_append]

/-- Parts that came in the order of their numbers are joined in that order. -/
theorem joined_of_range {log : Log} {id : Str} {n : Nat} (h : (log.parts id).map Prod.fst = List.range n) :
    log.joined id = ((log.parts id).map Prod.snd).flatten := by
  have hp : (log.parts id).Pairwise fun a b => a.1 ≤ b.1 := by
    have : ((log.parts id).map Prod.fst).Pairwise (· ≤ ·) := by
      rw [h]
      exact List.pairwise_le_range
    exact List.pairwise_map.mp this
  rw [Log.joined, hp.insertionSort_eq]

end Log

/-- Every part was sent under an id that the policy gave out. -/
def Issued (P : Policy) (log : Log) : Prop :=
  ∀ key id n body b, (StorCall.mput key id n body, b) ∈ log → ∃ k < log.length, id = P.uploadId k

theorem Issued.parts_fresh {P : Policy} {log : Log} (h : Issued P log) : log.parts (P.uploadId log.length) = [] := by
  rw [Log.parts, List.filterMap_eq_nil_iff]
  rintro ⟨c, b⟩ hc
  cases c with
  | mput key id n body =>
    cases b with
    | true =>
      obtain ⟨k, hk, rfl⟩ := h key id n body true hc
      have : P.uploadId k ≠ P.uploadId log.length := fun he => Nat.ne_of_lt hk (P.uploadId_inj he)
      simp [this]
    | false => rfl
  | _ => rfl

/-! ### The invariant -/

/-- The bytes in a part. -/
def Part.content (p : Part) : List Byte := p.buf.take p.woff

theorem Part.content_append {p : Part} {data : List Byte} (h : p.woff ≤ p.buf.length) :
    (p.append data data.length).content = p.content ++ data := by
  have : (p.buf.take p.woff ++ data).length = p.woff + data.length := by
    simp [Nat.min_eq_left h]
  simp only [Part.content, Part.append, List.take_length]
  rw [← this, List.take_length]

/-- The pending content of a handle: the bytes uploaded under its id, then the bytes staged. -/
def pending (w : SequenceWriter) (log : Log) : List Byte :=
  match w.uptype with
  | .PUT => (w.putPart.map Part.content).getD []
  | .MPUT => log.joined w.mputCtx.uploadId ++ (w.mputPart.map Part.content).getD []

/-- `w` holds exactly `acc`, and the part of its mode can take more. -/
inductive Staged (P : Policy) (w : SequenceWriter) (log : Log) (acc : List Byte) : Prop where
  | put (hup : w.uptype = .PUT) (hsize : w.putOrNew.partSize = MB_8) (hbuf : w.putOrNew.buf = acc)
    (hwoff : w.putOrNew.woff = acc.length)
  | mput (hup : w.uptype = .MPUT) (hbig : MB_8 ≤ acc.length)
    (hid : ∃ k < log.length, w.mputCtx.uploadId = P.uploadId k)
    (hnum : (log.parts w.mputCtx.uploadId).map Prod.fst = List.range w.mputCtx.partNum) {p : Part}
    (hp : w.mputPart = some p) (hwf : p.woff ≤ p.buf.length) (hroom : p.woff ≠ p.partSize) (hpos : 1 ≤ p.partSize)
    (hacc : ((log.parts w.mputCtx.uploadId).map Prod.snd).flatten ++ p.content = acc)

theorem Staged.new {P : Policy} {path : Str} {log : Log} : Staged P (SequenceWriter.new path) log [] :=
  .put rfl rfl rfl rfl

theorem Staged.pending_eq {P : Policy} {w : SequenceWriter} {log : Log} {acc : List Byte} (h : Staged P w log acc) :
    pending w log = acc := by
  cases h with
  | put hup hsize hbuf hwoff =>
    rw [putOrNew] at hbuf hwoff
    cases hp : w.putPart with
    | none =>
      rw [hp] at hbuf
      simpa [pending, hup, hp, Part.new] using hbuf
    | some p =>
      rw [hp] at hbuf hwoff
      simp only [Option.getD_some] at hbuf hwoff
      simp [pending, hup, hp, Part.content, hbuf, hwoff]
  | mput hup hbig hid hnum hp hwf hroom hpos hacc =>
    simp only [pending, hup, hp, Option.map_some, Option.getD_some]
    rw [Log.joined_of_range hnum, hacc]

/-- A call of the upload `id` of `path`. -/
def StorCall.OfUpload (path id : Str) : StorCall → Prop
  | .minit k i => k = path ∧ i = id
  | .mput k i _ _ => k = path ∧ i = id
  | _ => False

/-- What accepting data sends: calls of the handle's own upload, which is the one it had or a new one, all
    of which succeed; nothing while the handle is in PUT mode. -/
structure Sends (P : Policy) (w : SequenceWriter) (log : Log) (w' : SequenceWriter) (log' : Log) : Prop where
  path : w'.filePath = w.filePath
  grows : ∃ new, log' = log ++ new ∧ (∀ c ∈ new, c.1.OfUpload w.filePath w'.mputCtx.uploadId ∧ c.2 = true) ∧
    (w'.uptype = .PUT → new = [])
  mode : (w'.uptype = w.uptype ∧ w'.mputCtx.uploadId = w.mputCtx.uploadId) ∨
    (w.uptype = .PUT ∧ w'.uptype = .MPUT ∧ ∃ k, log.length ≤ k ∧ k < log'.length ∧ w'.mputCtx.uploadId = P.uploadId k)

/-- How accepting `data` after `acc` ends: with all of it taken and the next offset at `off`, with the
    `minit` refused and nothing changed, or with an `mput` refused and other content pending. -/
inductive Outcome (P : Policy) (w : SequenceWriter) (log : Log) (acc data : List Byte) (off : Nat) {α : Type} :
    Result Err (SequenceWriter × Log) α → Prop where
  | accepted {a : α} {w' : SequenceWriter} {log' : Log} (staged : Staged P w' log' (acc ++ data))
      (offset : w'.nextWriteOffset = off) (sends : Sends P w log w' log') (issued : Issued P log') :
      Outcome P w log acc data off (.ok a (w', log'))
  | minitFailed {e : Err} (hup : w.uptype = .PUT) (refused : ∃ n, P.fails n = true) :
      Outcome P w log acc data off (.error e (w, log ++ [(.minit w.filePath (P.uploadId log.length), false)]))
  | mputFailed {e : Err} {w' : SequenceWriter} {log' : Log} (failed : log'.mputFailed) (lost : pending w' log' ≠ acc)
      (refused : ∃ n, P.fails n = true) :
      Outcome P w log acc data off (.error e (w', log'))

end Catfs
