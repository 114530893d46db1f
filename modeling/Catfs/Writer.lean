import Catfs.Lib.Prog
import Catfs.Stor
import Mathlib.Data.Int.DivMod

/-! # The sequential writer (`src/fs/fwriter`)

`SequenceWriter` stages what is written to a handle in a part and sends it either as one object (`PUT`)
or, once more than 8 MiB came in, as the parts of a multipart upload (`MPUT`). Its methods are programs
whose steps are the reads and changes of its own fields, every `memcpy` and every call of the store, so
that the states in the middle of a `write` can be spoken of. -/

namespace Catfs

open Lib

/-- The value of a `uint64_t` as an `int`. -/
def toInt (n : Nat) : Int := (n : Int).bmod (2 ^ 32)

def MB_8 : Nat := 8 * 1024 * 1024

/-- `buf` is what was copied to the buffer so far, from its first byte on; past it the buffer of
    `partSize` bytes has never been written. -/
structure Part where
  buf : List Byte
  partSize : Nat
  woff : Nat
  deriving DecidableEq, Repr

namespace Part

/-- The constructor `Part(size)`. -/
def new (size : Nat) : Part := { buf := [], partSize := size, woff := 0 }

def len (p : Part) : Nat := p.woff
def cap (p : Part) : Nat := u64 (p.partSize - p.woff)
def full (p : Part) : Bool := p.partSize == p.woff
def clear (p : Part) : Part := { p with woff := 0 }

/-- `memcpy(buf + woff, data, size); woff += size;`. Bytes past `partSize`, which the source writes past the end of its
    buffer, are kept. -/
def append (p : Part) (data : List Byte) (size : Nat) : Part :=
  { p with buf := p.buf.take p.woff ++ data.take size, woff := p.woff + size }

end Part

inductive UpType where
  | PUT
  | MPUT
  deriving DecidableEq, Repr

structure MPUTCtx where
  uploadId : Str
  partNum : Nat
  deriving DecidableEq, Repr

/-- Offsets are `off_t` values, so `nextWriteOffset` stays far below the bound of its type. -/
structure SequenceWriter where
  filePath : Str
  putPart : Option Part
  mputPart : Option Part
  mputCtx : MPUTCtx
  uptype : UpType
  nextWriteOffset : Nat
  deriving DecidableEq, Repr

/-- The constructor `SequenceWriter(file)`. -/
def SequenceWriter.new (path : Str) : SequenceWriter :=
  { filePath := path, putPart := none, mputPart := none, mputCtx := ⟨[], 0⟩, uptype := .PUT, nextWriteOffset := 0 }

/-- The two members that point to a part. -/
inductive Slot where
  | put
  | mput
  deriving DecidableEq, Repr

namespace SequenceWriter

def part (w : SequenceWriter) : Slot → Option Part
  | .put => w.putPart
  | .mput => w.mputPart

def setPart (w : SequenceWriter) (slot : Slot) (p : Option Part) : SequenceWriter :=
  match slot with
  | .put => { w with putPart := p }
  | .mput => { w with mputPart := p }

end SequenceWriter

/-- The steps of the writer: on its own fields, a `memcpy` of `size` bytes to offset `off` of a buffer
    of `cap` bytes from a source of `src` bytes, and the calls of the store. -/
inductive WriterAct where
  | field
  | memcpy (cap off size src : Nat)
  | minit
  | mput
  | mfinish
  | putFile
  deriving DecidableEq, Repr

abbrev WriterM (σ : Type) := Prog WriterAct Err (SequenceWriter × σ)

namespace WriterM
variable {σ α : Type}

def fields : WriterM σ SequenceWriter := Prog.lift .field do return (← get).1

def update (f : SequenceWriter → SequenceWriter) : WriterM σ Unit := Prog.lift .field (modify fun s => (f s.1, s.2))

/-- `stor->f(req, resp)` -/
def call (l : WriterAct) (f : EStateM Err σ α) : WriterM σ α := Prog.lift l (zoom Prod.snd (fun t s => (s.1, t)) f)

/-- The part a member points to. -/
def deref (slot : Slot) : WriterM σ Part := do
  match (← fields).part slot with
  | some p => pure p
  | none => Prog.fail .nullDeref

end WriterM

open WriterM

section
variable {σ : Type}

/-- `Part::write` on the part in `slot`. -/
def Part.write (slot : Slot) (data : List Byte) (size : Nat) : WriterM σ Int := do
  let p ← deref slot
  if p.woff = p.partSize then pure 0
  else do
    Prog.lift (.memcpy p.partSize p.woff size data.length)
      (modify fun s => (s.1.setPart slot (some (p.append data size)), s.2))
    pure (toInt size)

/-- `Part::copy` from the part in `src`. -/
def Part.copy (slot src : Slot) (off size : Nat) : WriterM σ Nat := do
  let p ← deref src
  let n ← Part.write slot (p.buf.drop off) size
  pure (u64 n)

namespace SequenceWriter

def uploadPart (st : UploadStor σ) (slot : Slot) : WriterM σ Unit := do
  let w ← fields
  let partNum := w.mputCtx.partNum
  update fun w => { w with mputCtx := { w.mputCtx with partNum := w.mputCtx.partNum + 1 } }
  let part ← deref slot
  call .mput (st.mput { objKey := w.filePath, uploadId := w.mputCtx.uploadId, partNum, data := part.buf, size := part.len })

/-- `if (mput_part->full()) { upload_part(mput_part, false); mput_part->clear(); }` -/
def uploadFull (st : UploadStor σ) : WriterM σ Unit := do
  let p ← deref .mput
  if p.full then do
    uploadPart st .mput
    let p ← deref .mput
    update (·.setPart .mput (some p.clear))
  else pure ()

/-- The copy loop of `switch_mput_mode`, for at most `fuel` turns. -/
def copyLoop (st : UploadStor σ) : Nat → Nat → Nat → WriterM σ Unit
  | fuel, copyBytes, copyTotalBytes =>
    if copyBytes < copyTotalBytes then
      match fuel with
      | 0 => Prog.fail .diverge
      | fuel + 1 => do
        let n ← Part.copy .mput .put copyBytes (u64 (copyTotalBytes - copyBytes))
        uploadFull st
        copyLoop st fuel (u64 (copyBytes + n)) copyTotalBytes
    else pure ()

def switchMputMode (st : UploadStor σ) : WriterM σ Unit := do
  let w ← fields
  let initResp ← call .minit (st.minit { objKey := w.filePath })
  update fun w => { w with mputPart := some (Part.new initResp.partSize) }
  update fun w => { w with uptype := .MPUT }
  update fun w => { w with mputCtx := { w.mputCtx with partNum := 0 } }
  update fun w => { w with mputCtx := { w.mputCtx with uploadId := initResp.uploadId } }
  let mput ← deref .mput
  let put ← deref .put
  if mput.cap = put.len then uploadPart st .put
  else copyLoop st (put.len + 1) 0 put.len
  update (·.setPart .put none)

/-- `if (put_part == NULL) put_part = new Part(MB_8);` -/
def openPutPart : WriterM σ Unit := update fun w => w.setPart .put (some (w.putPart.getD (Part.new MB_8)))

/-- The loop of `write_data`, for at most `fuel` turns. `data` is the data pointer as the loop has moved
    it, and `size` and `wbytes` are the variables of that name. -/
def writeLoop (st : UploadStor σ) : Nat → List Byte → Nat → Nat → Nat → WriterM σ Unit
  | fuel, data, size, wbytes, total =>
    if wbytes = total then pure ()
    else
      match fuel with
      | 0 => Prog.fail .diverge
      | fuel + 1 => do
        match (← fields).uptype with
        | .PUT =>
          openPutPart
          let n ← Part.write .put data size
          let wbytes := u64 (wbytes + n)
          if (← deref .put).full then
            let leftBytes := u64 (size - wbytes)
            if 0 < leftBytes then do
              switchMputMode st
              writeLoop st fuel (data.drop wbytes) (u64 (size - wbytes)) wbytes total
            else pure ()
          else if wbytes = size then pure ()
          else writeLoop st fuel data size wbytes total
        | .MPUT =>
          let n ← Part.write .mput data size
          let wbytes := u64 (wbytes + n)
          uploadFull st
          writeLoop st fuel (data.drop wbytes) (u64 (size - wbytes)) wbytes total

def writeData (st : UploadStor σ) (data : List Byte) (size : Nat) : WriterM σ Unit :=
  writeLoop st (size + 3) data size 0 size

/-- The text of the error for a write that is not sequential. -/
def sequentialMsg (path : Str) (next off : Nat) : Str :=
  "fpath:".toList ++ path ++ " only support sequential write, next_write_offset:".toList ++ (toString next).toList ++
    ", offset:".toList ++ (toString off).toList

def write (st : UploadStor σ) (off size : Nat) (data : List Byte) : WriterM σ Int := do
  let w ← fields
  if w.nextWriteOffset ≠ off then Prog.fail (.string (sequentialMsg w.filePath w.nextWriteOffset off))
  else do
    writeData st data size
    update fun w => { w with nextWriteOffset := w.nextWriteOffset + size }
    pure (toInt size)

def fileSize (w : SequenceWriter) : Nat := w.nextWriteOffset

def uploadFile (st : UploadStor σ) : WriterM σ Unit := do
  let w ← fields
  match w.putPart with
  | none => pure ()
  | some p => call .putFile (st.putFile { objKey := w.filePath, buf := some p.buf, size := p.len, metaData := [] })

/-- The first statement of `finish_mput`. -/
def uploadLast (st : UploadStor σ) : WriterM σ Unit := do
  match (← fields).mputPart with
  | some p =>
    if 0 < p.len then do
      uploadPart st .mput
      update (·.setPart .mput none)
    else pure ()
  | none => pure ()

def finishMput (st : UploadStor σ) : WriterM σ Unit := do
  uploadLast st
  let w ← fields
  call .mfinish (st.mfinish { objKey := w.filePath, uploadId := w.mputCtx.uploadId })

def finishWrite (st : UploadStor σ) : WriterM σ Unit := do
  let w ← fields
  if w.nextWriteOffset = 0 then pure ()
  else
    match w.uptype with
    | .PUT => uploadFile st
    | .MPUT => finishMput st

def release (st : UploadStor σ) : WriterM σ Unit := finishWrite st

end SequenceWriter

end

end Catfs
