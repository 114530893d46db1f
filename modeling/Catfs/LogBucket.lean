import Catfs.Bucket
import Catfs.Lib.Paging
import Catfs.StorLog
import Mathlib.Data.List.Dedup
import Mathlib.Data.List.Lex
import Mathlib.Data.Char

/-! # A bucket kept in a log

A client whose service is the log of the calls made so far: the bucket is what the log leaves under each key,
and a listing is cut into pages of the size that the request allows. -/

namespace Catfs

open Lib

namespace Log

/-- No object has an empty key. -/
def bucket (log : Log) : Bucket := fun key => if key = [] then none else log.object key

/-- The keys that were ever written. -/
def written (log : Log) : List Str :=
  log.filterMap fun
    | (.putFile key _, true) => some key
    | (.mfinish key _, true) => some key
    | _ => none

def keys (log : Log) : List Str := log.written.dedup.filter fun key => (log.bucket key).isSome

/-- What a listing of `pre` shows for `key`: the key itself, or what it has up to the first slash after `pre`. -/
def entryOf (pre key : Str) : Option Str :=
  if pre <+: key then
    let rest := key.drop pre.length
    some (pre ++ if '/' ∈ rest then rest.takeWhile (· != '/') ++ slash else rest)
  else none

/-- The entries of the listing of `pre`, in the order of their names. -/
def entries (log : Log) (pre : Str) : List Str :=
  (log.keys.filterMap (entryOf pre)).dedup.insertionSort (· ≤ ·)

def markerOf (marker : Str) : Option Str := if marker = [] then none else some marker

def s3Object (log : Log) (key : Str) : S3Object :=
  { key, size := ((log.bucket key).getD []).length, lastModified := 0 }

def isPrefix (pre entry : Str) : Bool := '/' ∈ entry.drop pre.length

def listing (log : Log) (req : ListObjectsRequest) : ListObjectsResult :=
  let items := page (markerOf req.marker) req.maxKeys (log.entries req.pre)
  { isTruncated := truncated (markerOf req.marker) req.maxKeys (log.entries req.pre)
    nextMarker := items.getLast?.getD []
    commonPrefixes := items.filter (isPrefix req.pre)
    contents := (items.filter fun e => !isPrefix req.pre e).map log.s3Object }

/-- A client whose requests all succeed; the log counts the parts of an upload from 0. -/
def client : S3Client Log where
  garbage _ _ := noGarbage
  headObject key := fun log =>
    match log.bucket key with
    | some body => .ok { contentLength := body.length, lastModified := 0 } log
    | none => .error (.notFound []) log
  listObjects req := fun log => .ok (log.listing req) log
  putObject key body := fun log => .ok () (log ++ [(.putFile key body, true)])
  deleteObject key := fun log => .ok () (log ++ [(.deleteFile key, true)])
  getObject key first last := fun log =>
    match log.bucket key with
    | some body => .ok ((body.drop first).take (last + 1 - first)) log
    | none => .error (.notFound []) log
  createMultipartUpload key := fun log =>
    .ok (List.replicate log.length 'u') (log ++ [(.minit key (List.replicate log.length 'u'), true)])
  uploadPart key uploadId partNumber body := fun log =>
    .ok () (log ++ [(.mput key uploadId (partNumber - 1) body, true)])
  completeMultipartUpload key uploadId := fun log => .ok () (log ++ [(.mfinish key uploadId, true)])

end Log

end Catfs
