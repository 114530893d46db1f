import Catfs.StorS3

/-! # Buckets

What the documentation of S3 says of a client: the state of the service shows a bucket, and each request reads
or changes that bucket. How a listing is cut into pages is up to the service. -/

namespace Catfs

open EStateM (Result)

/-- The objects by their keys. -/
abbrev Bucket := Str → Option (List Byte)

namespace Bucket

def Holds (b : Bucket) (key : Str) : Prop := (b key).isSome

/-- There is an object at `pre ++ n` or below it. -/
def Backs (b : Bucket) (pre n : Str) : Prop := b.Holds (pre ++ n) ∨ ∃ rest, b.Holds (pre ++ n ++ slash ++ rest)

/-- `n` is the part of some key between `pre` and the next slash or the key's end, and is not empty. -/
def Yields (b : Bucket) (pre n : Str) : Prop := n ≠ [] ∧ '/' ∉ n ∧ b.Backs pre n

/-- A listing of `pre` makes an entry `n`: a name that it yields, or the empty one when there is an object `pre`. -/
def Enters (b : Bucket) (pre n : Str) : Prop := b.Yields pre n ∨ n = [] ∧ b.Holds pre

def put (b : Bucket) (key : Str) (body : List Byte) : Bucket := Function.update b key (some body)

def delete (b : Bucket) (key : Str) : Bucket := Function.update b key none

/-- The listing of `pre` with the delimiter `/`: the keys directly under it, with their sizes, and the common
    prefixes of the others, each up to the first slash after `pre`. -/
structure Listing (b : Bucket) (pre : Str) (contents : List S3Object) (commonPrefixes : List Str) : Prop where
  keys : ∀ key, (∃ o ∈ contents, o.key = key) ↔ ∃ n, key = pre ++ n ∧ '/' ∉ n ∧ b.Holds key
  sizes : ∀ o ∈ contents, ∀ body, b o.key = some body → o.size = body.length
  prefixes : ∀ p, p ∈ commonPrefixes ↔ ∃ n, p = pre ++ n ++ slash ∧ '/' ∉ n ∧ ∃ rest, b.Holds (p ++ rest)

/-- A part of that listing. -/
structure PartOfListing (b : Bucket) (pre : Str) (contents : List S3Object) (commonPrefixes : List Str) : Prop where
  keys : ∀ o ∈ contents, ∃ n body, o.key = pre ++ n ∧ '/' ∉ n ∧ b o.key = some body ∧ o.size = body.length
  prefixes : ∀ p ∈ commonPrefixes, ∃ n, p = pre ++ n ++ slash ∧ '/' ∉ n ∧ ∃ rest, b.Holds (p ++ rest)

end Bucket

section
variable {σ : Type}

/-- The request for the page after `marker` of the listing of `pre`. -/
def pageRequest (pre marker : Str) : ListObjectsRequest := { delimiter := slash, marker, maxKeys := 1000, pre }

/-- From the state `t` on, the pages that follow `marker` hold `contents` and `commonPrefixes`, and only the
    last one is not truncated; `n` is their number. Between two pages the state may change by `env`. -/
inductive S3Client.Pages (c : S3Client σ) (env : σ → σ → Prop) (pre : Str) :
    σ → Str → Nat → List S3Object → List Str → σ → Prop where
  | last {t t' : σ} {marker : Str} {r : ListObjectsResult}
      (h : c.listObjects (pageRequest pre marker) t = .ok r t') (hr : r.isTruncated = false) :
      Pages c env pre t marker 1 r.contents r.commonPrefixes t'
  | more {t t₁ t₂ t' : σ} {marker : Str} {r : ListObjectsResult} {n : Nat} {contents : List S3Object}
      {commonPrefixes : List Str} (h : c.listObjects (pageRequest pre marker) t = .ok r t₁)
      (hr : r.isTruncated = true) (he : env t₁ t₂) (rest : Pages c env pre t₂ r.nextMarker n contents commonPrefixes t') :
      Pages c env pre t marker (n + 1) (r.contents ++ contents) (r.commonPrefixes ++ commonPrefixes) t'

/-- A client whose requests all succeed, over a service whose state `t` shows the bucket `view t`. -/
structure S3Client.Serves (c : S3Client σ) (view : σ → Bucket) : Prop where
  noEmptyKey : ∀ t, view t [] = none
  head : ∀ t key body, view t key = some body →
    ∃ r t', c.headObject key t = .ok r t' ∧ r.contentLength = body.length ∧ view t' = view t
  headNone : ∀ t key, view t key = none → ∃ msg t', c.headObject key t = .error (.notFound msg) t' ∧ view t' = view t
  list : ∀ t req, req.delimiter = slash → ∃ r t', c.listObjects req t = .ok r t' ∧ view t' = view t ∧
    (view t).PartOfListing req.pre r.contents r.commonPrefixes
  pages : ∀ t pre n contents commonPrefixes t',
    c.Pages (fun t t' => view t' = view t) pre t [] n contents commonPrefixes t' →
    (view t).Listing pre contents commonPrefixes
  put : ∀ t key body, key ≠ [] → ∃ t', c.putObject key body t = .ok () t' ∧ view t' = (view t).put key body
  delete : ∀ t key, ∃ t', c.deleteObject key t = .ok () t' ∧ view t' = (view t).delete key

end

end Catfs
