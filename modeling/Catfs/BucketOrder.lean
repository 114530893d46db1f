import Catfs.LogBucket

/-! # The order of a listing

A listing has its entries, the keys and the common prefixes, in the order of their names, and a request answers
with the first of them after its marker, as many as it asks for. -/

namespace Catfs

open Lib

/-- The entries of the listing of `pre`, in order. -/
structure Bucket.Entries (b : Bucket) (pre : Str) (es : List Str) : Prop where
  sorted : es.Pairwise (· < ·)
  mem : ∀ e, e ∈ es ↔ (∃ n, e = pre ++ n ∧ '/' ∉ n ∧ b.Holds e) ∨
    ∃ n, e = pre ++ n ++ slash ∧ '/' ∉ n ∧ ∃ rest, b.Holds (e ++ rest)

/-- The result is the page of the entries `es` that the request asks for. -/
structure ListObjectsResult.PageOf (r : ListObjectsResult) (req : ListObjectsRequest) (es : List Str) : Prop where
  contents : r.contents.map S3Object.key =
    (page (Log.markerOf req.marker) req.maxKeys es).filter fun e => !Log.isPrefix req.pre e
  commonPrefixes : r.commonPrefixes = (page (Log.markerOf req.marker) req.maxKeys es).filter (Log.isPrefix req.pre)
  isTruncated : r.isTruncated = truncated (Log.markerOf req.marker) req.maxKeys es
  nextMarker : r.isTruncated = true → (page (Log.markerOf req.marker) req.maxKeys es).getLast? = some r.nextMarker

/-- A client that lists in order. A bucket has finitely many keys. -/
structure S3Client.InOrder {σ : Type} (c : S3Client σ) (view : σ → Bucket) : Prop where
  entries : ∀ t pre, ∃ es, (view t).Entries pre es
  list : ∀ t req es, req.delimiter = slash → 0 < req.maxKeys → (view t).Entries req.pre es →
    ∃ r t', c.listObjects req t = .ok r t' ∧ view t' = view t ∧ r.PageOf req es

/-- The result lists the entries `items` of the listing of `pre`. -/
structure ListObjectsResult.Lists (r : ListObjectsResult) (b : Bucket) (pre : Str) (items : List Str) : Prop where
  contents : r.contents.map S3Object.key = items.filter fun e => !Log.isPrefix pre e
  commonPrefixes : r.commonPrefixes = items.filter (Log.isPrefix pre)
  sizes : ∀ o ∈ r.contents, ∀ body, b o.key = some body → o.size = body.length

/-- From the state `t` on, the pages that follow `marker` list the entries `cut`, page by page. -/
inductive S3Client.Cuts {σ : Type} (c : S3Client σ) (b : Bucket) (pre : Str) : σ → Str → List (List Str) → σ → Prop where
  | last {t t' : σ} {marker : Str} {r : ListObjectsResult} {items : List Str}
      (h : c.listObjects (pageRequest pre marker) t = .ok r t') (hr : r.isTruncated = false) (hl : r.Lists b pre items) :
      Cuts c b pre t marker [items] t'
  | more {t t₁ t' : σ} {marker : Str} {r : ListObjectsResult} {items : List Str} {cut : List (List Str)}
      (h : c.listObjects (pageRequest pre marker) t = .ok r t₁) (hr : r.isTruncated = true) (hl : r.Lists b pre items)
      (rest : Cuts c b pre t₁ r.nextMarker cut t') : Cuts c b pre t marker (items :: cut) t'

/-- What the memory of the list entry for `key` holds when the page of the cut that has it is read. -/
def S3Client.entryGarbage {σ : Type} (c : S3Client σ) (pre key : Str) : σ → Str → List (List Str) → Garbage
  | t, _, [] => c.garbage t key
  | t, marker, items :: cut =>
    if items.contains key then c.garbage t key
    else match c.listObjects (pageRequest pre marker) t with
      | .ok r t₁ => c.entryGarbage pre key t₁ r.nextMarker cut
      | .error _ t₁ => c.garbage t₁ key

end Catfs
