import Catfs.Theorems.BucketFrame
import Catfs.Theorems.TreeShape

/-! # Requests on names that run at the same time

Any number of requests take their steps in any order, and each step may fail. The cache stays a well-formed tree over its
index (`interleaved_wellFormed`), and no object is touched but those of the entries that the requests create and remove
(`interleaved_objects`). -/

namespace Catfs

open Lib MetaM LocalMemMeta
open EStateM (Result)

namespace MetaImpl
variable {ι σ : Type} [DecidableEq ι] {opt : ι → MetaOpt} {fuel : ι → Nat} {reqs : ι → Request} {s : World σ}
  {y : Pool ι MetaAct Err (World σ) Unit}

/-- The requests, each with its options, over the store `st`. -/
def requestPool (opt : ι → MetaOpt) (st : Stor σ) (fuel : ι → Nat) (reqs : ι → Request) (s : World σ) :
    Pool ι MetaAct Err (World σ) Unit := .start (fun i => (reqs i).prog (opt i) st (fuel i)) s

/-- Between two steps the clock and the store may change in any way. -/
def CacheStays (s s' : World σ) : Prop := s'.cache = s.cache

/-- Between two steps the clock may move in any way, and the bucket stays. -/
structure BucketStays (view : σ → Bucket) (s s' : World σ) : Prop where
  cache : s'.cache = s.cache
  view : view s'.stor = view s.stor

omit [DecidableEq ι] in
theorem grown_of_eq {s' : World σ} (hs : CacheInv s) (h : s'.cache = s.cache) : Grown s s' := by
  refine ⟨hs, ?_, ?_⟩
  · rwa [CacheInv, h]
  · rw [CacheGrow, h]
    exact .refl _

omit [DecidableEq ι] in
theorem grows_tame {α : Type} {q : MetaM σ α} (hq : Tame q) :
    q.Moves Grown (fun _ => Grown) CacheInv (fun _ => True) fun _ _ => True :=
  Prog.moves_of_preserves (hq.weaken (fun _ h => h) fun _ _ hs hinv hg => ⟨hs, hinv, hg⟩) (fun _ _ _ _ _ h => ⟨h, h⟩)
    Prog.persists_true

/-- In every state that any interleaving of requests leads to, over any store that may answer anything and fail at any
    step, the cache is a well-formed tree: what was in it keeps its inode number, name, parent and index entry, and no
    inode number was handed out twice. -/
theorem interleaved_wellFormed {st : Stor σ} (hs : CacheInv s)
    (h : Pool.Runs (fun _ _ _ => True) CacheStays (requestPool opt st fuel reqs s) y) :
    WellFormed y.conf.state.cache ∧ Grow s.cache y.conf.state.cache := by
  have hmoves : Pool.Moving Grown (fun _ => Grown) CacheInv (fun _ _ _ => True) (requestPool opt st fuel reqs s) := fun i =>
    ⟨fun _ => True, Prog.persists_true, trivial, grows_tame (tame_request (reqs i))⟩
  have hstep : ∀ {s₁ s₂ : World σ}, Grown s₁ s₂ → Grow s.cache s₁.cache → CacheInv s₂ ∧ Grow s.cache s₂.cache :=
    fun h hgrow => ⟨h.after, hgrow.trans h.grow⟩
  obtain ⟨⟨hinv, hgrow⟩, -⟩ := Pool.invariant (J := fun x => CacheInv x.state ∧ Grow s.cache x.state.cache)
    (fun _ hx => hx.1) (fun _ _ _ _ hx _ h => ⟨hstep h hx.2, h⟩)
    (fun _ _ hx he => ⟨hstep (grown_of_eq hx.1 he) hx.2, grown_of_eq hx.1 he⟩) hmoves ⟨hs, .refl _⟩ h
  exact ⟨hinv.wellFormed, hgrow⟩

/-- The creation of a file in the root, and its removal. -/
def createAndRemove : Bool → Request
  | false => .create ROOT_INODE_ID ['f'] S_IFREG
  | true => .remove ROOT_INODE_ID ['f']

def bothRequests : Pool Bool MetaAct Err (World Log) Unit :=
  requestPool (fun _ => ⟨0, 0, 60⟩) (s3Stor Log.client) (fun _ => 1) createAndRemove (newWorld [])

/-- The removal looks the name up before the creation begins, and goes on when it is done. -/
theorem both_end : ∃ y, bothRequests.exec (fun _ _ _ => true) ([true] ++ List.replicate 13 false ++ List.replicate 10 true) = some y ∧
    (y.threads true).value.isSome = true := (Option.any_eq_true _ _).mp (by decide +kernel)

theorem interleaved_wellFormed_both : ∃ y, Pool.Runs (fun _ _ _ => True) CacheStays bothRequests y ∧
    WellFormed y.conf.state.cache ∧ Grow newCache y.conf.state.cache := by
  obtain ⟨y, hy, -⟩ := both_end
  have hruns : Pool.Runs (fun _ _ _ => True) CacheStays (requestPool (fun _ => ⟨0, 0, 60⟩) (s3Stor Log.client) (fun _ => 1)
      createAndRemove (newWorld [])) y := Pool.runs_exec (fun _ _ _ _ => trivial) hy
  exact ⟨y, hruns, interleaved_wellFormed (show CacheInv (newWorld []) from .new ⟨0, 0, 60⟩ ⟨0, 0⟩) hruns⟩

variable {c : S3Client σ} {view : σ → Bucket}

/-- One of the requests may leave `v` as the object under `key`. -/
def AnySets (reqs : ι → Request) (m : LocalMemMeta) (key : Str) (v : Option (List Byte)) : Prop := ∃ i, (reqs i).Sets m key v

omit [DecidableEq ι] in
theorem anySets_settled : Settled (AnySets reqs) := fun m m' key v hm hg ⟨i, hi⟩ => ⟨i, (reqs i).sets_settled m m' key v hm hg hi⟩

/-- In every state that any interleaving of requests leads to, whichever calls failed, each object is what it was at the
    start, or what one of the requests may make of it: the empty object of an entry that a request creates, or none for an
    entry that a request removes. -/
theorem interleaved_objects (hc : c.Atomic view) (hs : CacheInv s)
    (h : Pool.Runs (fun _ _ _ => True) (BucketStays view) (requestPool opt (s3Stor c) fuel reqs s) y) (key : Str) :
    view y.conf.state.stor key = view s.stor key ∨
      ∃ i, (reqs i).Sets y.conf.state.cache key (view y.conf.state.stor key) := by
  have hmoves : Pool.Moving Grown (fun _ => Framed view (AnySets reqs)) CacheInv (fun _ _ _ => True)
      (requestPool opt (s3Stor c) fuel reqs s) := fun i =>
    ⟨fun _ => True, Prog.persists_true, trivial, frames_request hc (reqs i) fun _ _ _ hi => ⟨i, hi⟩⟩
  have hkeep : ∀ {s₁ s₂ : World σ}, CacheInv s₁ → CacheGrow s₁ s₂ →
      (view s₁.stor key = view s.stor key ∨ AnySets reqs s₁.cache key (view s₁.stor key)) →
      view s₂.stor key = view s₁.stor key →
      view s₂.stor key = view s.stor key ∨ AnySets reqs s₂.cache key (view s₂.stor key) := by
    intro s₁ s₂ hinv hgrow hor heq
    rw [heq]
    exact hor.imp id (anySets_settled _ _ _ _ hinv hgrow)
  refine (Pool.invariant (J := fun x => CacheInv x.state ∧ (view x.state.stor key = view s.stor key ∨
    AnySets reqs x.state.cache key (view x.state.stor key))) (fun _ hx => hx.1) ?_ ?_ hmoves ⟨hs, .inl rfl⟩ h).1.2
  · intro i l x s' hx _ hstep
    refine ⟨⟨hstep.inv, ?_⟩, hx.1, hstep.inv, hstep.grow⟩
    by_cases heq : view s'.stor key = view x.state.stor key
    · exact hkeep hx.1 hstep.grow hx.2 heq
    · exact .inr (anySets_settled _ _ _ _ hx.1 hstep.grow (hstep.object key heq))
  · intro x s' hx he
    have hgrown := grown_of_eq hx.1 he.cache
    exact ⟨⟨hgrown.after, hkeep hx.1 hgrown.grow hx.2 (congrFun he.view key)⟩, hgrown⟩

theorem interleaved_objects_both : ∃ y, Pool.Runs (fun _ _ _ => True) (BucketStays Log.bucket) bothRequests y ∧
    (y.conf.state.stor.bucket ['f'] = Log.bucket [] ['f'] ∨
      ∃ i, (createAndRemove i).Sets y.conf.state.cache ['f'] (y.conf.state.stor.bucket ['f'])) := by
  obtain ⟨y, hy, -⟩ := both_end
  have hruns : Pool.Runs (fun _ _ _ => True) (BucketStays Log.bucket) (requestPool (fun _ => ⟨0, 0, 60⟩) (s3Stor Log.client)
      (fun _ => 1) createAndRemove (newWorld [])) y := Pool.runs_exec (fun _ _ _ _ => trivial) hy
  exact ⟨y, hruns, interleaved_objects Log.client_atomic (show CacheInv (newWorld []) from .new ⟨0, 0, 60⟩ ⟨0, 0⟩) hruns ['f']⟩

end MetaImpl

end Catfs
