import Catfs.Theorems.HandleRun
import Catfs.Theorems.TreeShape
import Catfs.Theorems.ReleaseOutcome

/-! # Handles over one store

Any number of handles write through the same store, in any order. Each request is recorded with its outcome
and the calls it made of the store; what a release sends is compared with the writes recorded before it. -/

namespace Catfs

open Lib SequenceWriter MetaImpl
open EStateM (Result)

/-! ### Histories -/

inductive FileReq where
  | openfile (ino : InodeID) (hasWrote : Bool)
  | writefile (hno : HandleID) (off : Nat) (data : List Byte)
  | releaseFile (hno : HandleID)
  deriving DecidableEq

def FileReq.exec (st : Stor Log) : FileReq → FsM Log Unit
  | .openfile ino hasWrote => do let _ ← CatFS.openfile ino hasWrote
  | .writefile hno off data => do let _ ← CatFS.writefile st hno off data
  | .releaseFile hno => CatFS.releaseFile st hno

/-- A request that was made, whether it returned, and the calls of the store that it made. -/
structure FileEvent where
  req : FileReq
  ok : Bool
  calls : Log

def FileReq.event (st : Stor Log) (fs : CatFS Log) (r : FileReq) : FileEvent :=
  { req := r
    ok := returned (r.exec st fs)
    calls := (endState (r.exec st fs)).world.stor.drop fs.world.stor.length }

def runFiles (st : Stor Log) : CatFS Log → List FileReq → CatFS Log
  | fs, [] => fs
  | fs, r :: reqs => runFiles st (endState (r.exec st fs)) reqs

def history (st : Stor Log) : CatFS Log → List FileReq → List FileEvent
  | _, [] => []
  | fs, r :: reqs => r.event st fs :: history st (endState (r.exec st fs)) reqs

/-- The data of the accepted writes on a handle, in order. -/
def acceptedOn (hno : HandleID) (evs : List FileEvent) : List Byte :=
  evs.flatMap fun e => match e.req with
    | .writefile h _ data => if h = hno ∧ e.ok then data else []
    | _ => []

def FileReq.On (hno : HandleID) : FileReq → Prop
  | .openfile _ _ => False
  | .writefile h _ _ => h = hno
  | .releaseFile h => h = hno

instance (hno : HandleID) : DecidablePred (FileReq.On hno) := fun r => by
  cases r <;> unfold FileReq.On <;> infer_instance

/-- The calls of the store that the requests on a handle made. -/
def sentBy (hno : HandleID) (evs : List FileEvent) : Log :=
  evs.flatMap fun e => if e.req.On hno then e.calls else []

def FileEvent.Releases (hno : HandleID) (e : FileEvent) : Prop := e.req = .releaseFile hno ∧ e.ok = true

def Released (hno : HandleID) (evs : List FileEvent) : Prop := ∃ e ∈ evs, e.Releases hno

/-- A handle gets no request after its release, and no write is of 2 GiB or more. -/
structure Orderly (evs : List FileEvent) : Prop where
  order : evs.Pairwise fun e e' => ∀ hno, e.Releases hno → ¬ e'.req.On hno
  short : ∀ e ∈ evs, ∀ hno off data, e.req = .writefile hno off data → data.length < 2 ^ 31

/-- A mount with no open file, over an empty log. -/
def CatFS.mount (cache : LocalMemMeta) (now : Timespec) (garbage : Garbage) : CatFS Log :=
  { world := { cache, stor := [], now, garbage }, openFiles := fun _ => none, nextHandleId := 0 }

/-- What was sent for a handle with the path `path` is exactly `acc`, and the bucket now holds it: the body of
    a `put_file`, or the parts of one upload joined by their numbers; nothing when `acc` is empty. -/
inductive SentExactly (path : Str) (acc : List Byte) (sent log : Log) : Prop where
  | nothing (h : acc = []) (hs : sent = [])
  | put (h : acc ≠ []) (hs : sent = [(.putFile path acc, true)]) (ho : log.object path = some acc)
  | upload (parts : Log) {id : Str} (h : acc ≠ []) (hs : sent = parts ++ [(.mfinish path id, true)])
      (hp : ∀ c ∈ parts, c.1.OfUpload path id ∧ c.2 = true) (hj : log.joined id = acc) (ho : log.object path = some acc)

/-- What the history before it promises about a request. -/
def FileReq.Faithful (st : Stor Log) (fs : CatFS Log) (evs : List FileEvent) (r : FileReq) : Prop :=
  match r with
  | .openfile _ _ => True
  | .writefile hno off _ => (fs.openFiles hno).isSome →
    ((r.event st fs).ok = true ↔ off = (acceptedOn hno evs).length) ∧
    ((r.event st fs).ok = false → (endState (r.exec st fs)).world.stor = fs.world.stor ∧
      ∀ hno', ((endState (r.exec st fs)).openFiles hno').map OpenFile.writer = (fs.openFiles hno').map OpenFile.writer)
  | .releaseFile hno => ∀ file, fs.openFiles hno = some file →
    (r.event st fs).ok = true ∧
    SentExactly file.rtfile.path (acceptedOn hno evs) (sentBy hno (evs ++ [r.event st fs]))
      (endState (r.exec st fs)).world.stor

end Catfs
