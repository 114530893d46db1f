import Catfs.Stor

/-! # The store over S3 (`src/stor/stor_s3.cpp`)

The SDK's client is a parameter: its requests either succeed with a result or fail with an error. -/

namespace Catfs

open EStateM (Result)

/-- `notFound` is the response code 404. -/
inductive S3Error where
  | notFound (msg : Str)
  | other (msg : Str)
  deriving DecidableEq, Repr

def S3Error.message : S3Error → Str
  | notFound msg => msg
  | other msg => msg

/-- Times are the seconds of the `LastModified` field. -/
structure HeadObjectResult where
  contentLength : Nat
  lastModified : Nat

structure ListObjectsRequest where
  delimiter : Str
  marker : Str
  maxKeys : Nat
  pre : Str

structure S3Object where
  key : Str
  size : Nat
  lastModified : Nat
  deriving DecidableEq, Repr

structure ListObjectsResult where
  isTruncated : Bool
  nextMarker : Str
  commonPrefixes : List Str
  contents : List S3Object

/-- `garbage` is no part of the SDK: it is what the memory of the `types::ObjInfo obj;` that `S3Stor` declares for a key
    holds. -/
structure S3Client (σ : Type) where
  garbage : σ → Str → Garbage
  headObject : Str → EStateM S3Error σ HeadObjectResult
  listObjects : ListObjectsRequest → EStateM S3Error σ ListObjectsResult
  putObject : Str → List Byte → EStateM S3Error σ Unit
  deleteObject : Str → EStateM S3Error σ Unit
  /-- The bytes from the first offset to the last, as the header `Range` asks for. -/
  getObject : Str → Nat → Nat → EStateM S3Error σ (List Byte)
  createMultipartUpload : Str → EStateM S3Error σ Str
  uploadPart : Str → Str → Nat → List Byte → EStateM S3Error σ Unit
  completeMultipartUpload : Str → Str → EStateM S3Error σ Unit

section
variable {σ α : Type}

/-- `if (!outcome.IsSuccess()) throw ERR_SERVER_ERROR(outcome.GetError().GetMessage())` -/
def orServerError (m : EStateM S3Error σ α) : EStateM Err σ α := fun s =>
  match m s with
  | .ok a s => .ok a s
  | .error e s => .error (.serverError e.message) s

/-- `types::ObjInfo obj; obj.size = ...; obj.ctime.tv_sec = ...; obj.mtime.tv_sec = ...`: the nanoseconds are not set. -/
def objInfo (g : Garbage) (name : Str) (size lastModified : Nat) : ObjInfo :=
  { ObjInfo.uninit g with
    name, size, ctime := { g.ctime with sec := lastModified }, mtime := { g.mtime with sec := lastModified } }

/-- `req.off + req.size - 1`, in 64 bits. -/
def lastByte (off size : Nat) : Nat := u64 ((off : Int) + size - 1)

theorem lastByte_eq {off size : Nat} (hsize : size ≠ 0) (hend : off + size ≤ 2 ^ 64) : lastByte off size = off + size - 1 := by
  rw [lastByte, u64]
  omega

/-- The number of the part after `part_num`, as S3 counts them from 1. -/
def s3PartNumber (partNum : Nat) : Nat := partNum + 1

/-- `class S3Stor`. `head_file` leaves the rest of its response alone when there is no such object. -/
def s3Stor (c : S3Client σ) : Stor σ where
  headFile req resp := fun s =>
    match c.headObject req.objKey s with
    | .ok r s' => .ok { exist := true, obj := objInfo (c.garbage s req.objKey) [] r.contentLength r.lastModified } s'
    | .error (.notFound _) s => .ok { resp with exist := false } s
    | .error e s => .error (.serverError e.message) s
  listObjects req := fun s => (do
    let r ← orServerError
      (c.listObjects { delimiter := slash, marker := req.marker, maxKeys := req.max, pre := req.pre })
    return {
      isTrunc := r.isTruncated
      nextMarker := r.nextMarker
      commonPrefixes := r.commonPrefixes
      objs := r.contents.map fun o => objInfo (c.garbage s o.key) o.key o.size o.lastModified } :
    EStateM Err σ ListObjectsResp) s
  readFile req := do
    let body ← orServerError (c.getObject req.objKey req.off (lastByte req.off req.size))
    return { dst := body, bytes := body.length }
  deleteFile req := orServerError (c.deleteObject req.objKey)
  putFile req := orServerError (c.putObject req.objKey ((req.buf.getD []).take req.size))
  minit req := do
    let uploadId ← orServerError (c.createMultipartUpload req.objKey)
    return { partSize := 8 * 1024 * 1024, uploadId }
  mput req := orServerError (c.uploadPart req.objKey req.uploadId (s3PartNumber req.partNum) (req.data.take req.size))
  mfinish req := orServerError (c.completeMultipartUpload req.objKey req.uploadId)

end

end Catfs
