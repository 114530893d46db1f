import Catfs.Stor
import Mathlib.Data.List.Sort
import Mathlib.Logic.Function.Basic

/-! # A store that records what is sent to it

Its state is the list of the calls made so far, each with whether it succeeded; a failed call changes
nothing else. What it answers is up to a `Policy`: which calls fail, and the part size and upload id a
`minit` returns. `mfinish` joins the parts of an upload by their numbers. -/

namespace Catfs

inductive StorCall where
  | putFile (key : Str) (body : List Byte)
  | minit (key uploadId : Str)
  | mput (key uploadId : Str) (partNum : Nat) (body : List Byte)
  | mfinish (key uploadId : Str)
  | deleteFile (key : Str)
  deriving DecidableEq, Repr

/-- Oldest call first. -/
abbrev Log := List (StorCall × Bool)

/-- The answers of the store to its `n`-th call. Upload ids of different calls differ, and a part size is
    a positive `uint64_t`. -/
structure Policy where
  fails : Nat → Bool
  uploadId : Nat → Str
  partSize : Nat → Nat
  uploadId_inj : Function.Injective uploadId
  partSize_pos : ∀ n, 1 ≤ partSize n
  partSize_lt : ∀ n, partSize n < 2 ^ 64

namespace Policy

/-- The `n`-th call, recorded with its outcome. -/
def answer {α : Type} (P : Policy) (c : StorCall) (a : α) : EStateM Err Log α := fun log =>
  if P.fails log.length then .error (.serverError []) (log ++ [(c, false)]) else .ok a (log ++ [(c, true)])

def stor (P : Policy) : UploadStor Log where
  putFile req := P.answer (.putFile req.objKey ((req.buf.getD []).take req.size)) ()
  minit req := fun log =>
    P.answer (.minit req.objKey (P.uploadId log.length))
      { partSize := P.partSize log.length, uploadId := P.uploadId log.length } log
  mput req := P.answer (.mput req.objKey req.uploadId req.partNum (req.data.take req.size)) ()
  mfinish req := P.answer (.mfinish req.objKey req.uploadId) ()

/-- The answers of `S3Stor`, over a bucket that refuses the calls `fails`. -/
def s3 (fails : Nat → Bool) : Policy where
  fails
  uploadId n := List.replicate n 'u'
  partSize _ := 8 * 1024 * 1024
  uploadId_inj m n h := by simpa using congrArg List.length h
  partSize_pos _ := by decide
  partSize_lt _ := by decide

end Policy

namespace Log

/-- The parts stored under an upload id, in the order of their arrival. -/
def parts (log : Log) (uploadId : Str) : List (Nat × List Byte) :=
  log.filterMap fun
    | (.mput _ id n body, true) => if id = uploadId then some (n, body) else none
    | _ => none

/-- The parts joined by their numbers. -/
def joined (log : Log) (uploadId : Str) : List Byte :=
  (((log.parts uploadId).insertionSort fun a b => a.1 ≤ b.1).map Prod.snd).flatten

/-- The object under `key` after `rest`, when it was `obj` after the calls `log` that came before. -/
def objectFrom (key : Str) : Log → Option (List Byte) → Log → Option (List Byte)
  | _, obj, [] => obj
  | log, obj, c :: rest =>
    objectFrom key (log ++ [c]) (match c with
      | (.putFile k body, true) => if k = key then some body else obj
      | (.mfinish k id, true) => if k = key then some (log.joined id) else obj
      | (.deleteFile k, true) => if k = key then none else obj
      | _ => obj) rest

/-- The object the calls leave under a key, if any. -/
def object (log : Log) (key : Str) : Option (List Byte) := objectFrom key [] none log

/-- Some `mput` failed. -/
def mputFailed (log : Log) : Prop := ∃ key id n body, (StorCall.mput key id n body, false) ∈ log

end Log

end Catfs
