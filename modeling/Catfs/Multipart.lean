import Catfs.LogBucket

/-! # Multipart uploads of S3

S3 answers a part with an ETag, and a completion names the parts that the object is made of. `S3Stor` keeps no ETag and
names no part. -/

namespace Catfs

structure CompletedPart where
  partNumber : Nat
  eTag : Str
  deriving DecidableEq, Repr

/-- The requests of an upload: a part is sent with its number, and is answered with its ETag. -/
structure MultipartClient (σ : Type) where
  createMultipartUpload : Str → EStateM S3Error σ Str
  uploadPart : Str → Str → Nat → List Byte → EStateM S3Error σ Str
  completeMultipartUpload : Str → Str → List CompletedPart → EStateM S3Error σ Unit

/-- The client as `S3Stor` uses it: `mput` reads nothing of the result of a part, and `mfinish` sends a request whose
    `MultipartUpload` was never set. -/
def S3Client.withMultipart {σ : Type} (c : S3Client σ) (mp : MultipartClient σ) : S3Client σ :=
  { c with
    createMultipartUpload := mp.createMultipartUpload
    uploadPart := fun key uploadId partNumber body => do
      let _ ← mp.uploadPart key uploadId partNumber body
    completeMultipartUpload := fun key uploadId => mp.completeMultipartUpload key uploadId [] }

/-- The documentation of S3, over a service whose state `t` shows the bucket `view t`, has the upload of `key` with the
    id `id` in progress when `isOpen t key id`, and holds the part `n` of it, with its ETag, as `stored t id n`. -/
structure MultipartClient.Assembles {σ : Type} (mp : MultipartClient σ) (view : σ → Bucket) (isOpen : σ → Str → Str → Prop)
    (stored : σ → Str → Nat → Option (Str × List Byte)) : Prop where
  creates : ∀ t key, key ≠ [] → ∃ id t', mp.createMultipartUpload key t = .ok id t' ∧ view t' = view t ∧ isOpen t' key id
  uploads : ∀ t key id n body, isOpen t key id → 1 ≤ n → n ≤ 10000 → ∃ eTag t',
    mp.uploadPart key id n body t = .ok eTag t' ∧ view t' = view t ∧ isOpen t' key id ∧
    stored t' id = Function.update (stored t id) n (some (eTag, body))
  /-- All parts but the last are of 5 MiB at least. -/
  completes : ∀ t key id named bodies, isOpen t key id → named ≠ [] → (named.map (·.partNumber)).Pairwise (· < ·) →
    List.Forall₂ (fun p body => stored t id p.partNumber = some (p.eTag, body)) named bodies →
    (∀ body ∈ bodies.dropLast, 5 * 1024 * 1024 ≤ body.length) →
    ∃ t', mp.completeMultipartUpload key id named t = .ok () t' ∧ view t' = (view t).put key bodies.flatten
  rejects : ∀ t key id, ∃ e t', mp.completeMultipartUpload key id [] t = .error e t' ∧ view t' = view t

namespace Log

/-- What stands for the hash of a part. -/
def eTag (body : List Byte) : Str := body.map fun b => Char.ofNat b.toNat

/-- The last part that was sent with a number, as S3 counts them. -/
def storedPart (log : Log) (uploadId : Str) (n : Nat) : Option (Str × List Byte) :=
  ((log.parts uploadId).reverse.find? fun p => s3PartNumber p.1 = n).map fun p => (eTag p.2, p.2)

/-- The bodies of the parts that a completion names. -/
def namedBodies (log : Log) (uploadId : Str) (named : List CompletedPart) : Option (List (List Byte)) :=
  named.mapM fun p => (log.storedPart uploadId p.partNumber).bind fun q => if q.1 = p.eTag then some q.2 else none

/-- A service that keeps the parts in its log, and puts the object there once the upload is complete. -/
def multipart : MultipartClient Log where
  createMultipartUpload := client.createMultipartUpload
  uploadPart key uploadId partNumber body := do
    client.uploadPart key uploadId partNumber body
    return eTag body
  completeMultipartUpload key uploadId named := fun log =>
    if named = [] then .error (.other "MalformedXML".toList) log
    else
      match log.namedBodies uploadId named with
      | some bodies => .ok () (log ++ [(.putFile key bodies.flatten, true)])
      | none => .error (.other "InvalidPart".toList) log

end Log

end Catfs
