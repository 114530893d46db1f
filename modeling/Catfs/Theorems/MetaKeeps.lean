import Catfs.MetaImpl
import Catfs.Theorems.CacheKeeps

/-! # The requests keep the shape of the cache

Every step of every request does, whatever the store answers, so a request that throws in the middle does
too, and so does any interleaving of requests. -/

namespace Catfs

open Lib MetaM LocalMemMeta

namespace MetaImpl
variable {σ α : Type}

def CacheInv (s : World σ) : Prop := Inv s.cache

def CacheGrow (s s' : World σ) : Prop := Grow s.cache s'.cache

instance : Std.Refl (@CacheGrow σ) := ⟨fun s => .refl s.cache⟩
instance : IsTrans (World σ) CacheGrow := ⟨fun _ _ _ => Grow.trans⟩

/-- Every step of `p` keeps the shape of the cache. -/
abbrev Tame (p : MetaM σ α) : Prop := p.Preserves (fun _ => True) CacheInv CacheGrow

/-! ### Steps that run alone -/

section
variable {m m' : LocalMemMeta} {a : Addr} {t t' : σ} {now : Timespec} {garbage : Garbage}

theorem run_cache {l : MetaAct} {f : Timespec → LocalM α} : (cache l f : MetaM σ α).run ⟨m, t, now, garbage⟩ =
    match f now m with
    | .ok x m' => .ok x ⟨m', t, now, garbage⟩
    | .error e m' => .error e ⟨m', t, now, garbage⟩ := by
  simp only [cache, Prog.run_lift, onCache, zoom]
  cases f now m <;> rfl

theorem run_cache_ok {l : MetaAct} {f : Timespec → LocalM α} {x : α} (h : f now m = .ok x m') :
    (cache l f : MetaM σ α).run ⟨m, t, now, garbage⟩ = .ok x ⟨m', t, now, garbage⟩ := by
  rw [run_cache, h]

theorem run_call_ok {l : MetaAct} {f : EStateM Err σ α} {x : α} (h : f t = .ok x t') :
    (call l f).run ⟨m, t, now, garbage⟩ = .ok x ⟨m, t', now, garbage⟩ := by
  simp only [call, Prog.run_lift, zoom, h]

theorem run_readDentry : (readDentry a : MetaM σ Dentry).run ⟨m, t, now, garbage⟩ = .ok (m.heap a) ⟨m, t, now, garbage⟩ :=
  run_cache_ok run_load

end

/-! ### The steps -/

theorem tame_cache {l : MetaAct} {f : Timespec → LocalM α} (h : ∀ now, Kept (f now)) : Tame (cache l f : MetaM σ α) := by
  refine Prog.preserves_lift trivial fun s hs _ => ?_
  have := h s.now s.cache hs trivial
  simp only [onCache, zoom]
  cases hf : f s.now s.cache <;> rw [hf] at this <;> exact this

theorem tame_call {l : MetaAct} {f : EStateM Err σ α} : Tame (call l f) := by
  refine Prog.preserves_lift trivial fun s hs _ => ?_
  simp only [zoom]
  cases f s.stor
  · exact ⟨hs, Grow.refl _, trivial⟩
  · exact ⟨hs, Grow.refl _⟩

theorem tame_readDentry {a : Addr} : Tame (readDentry a : MetaM σ _) := tame_cache fun _ => kept_load

theorem tame_pathWithSlash {a : Addr} : Tame (pathWithSlash a : MetaM σ _) := tame_cache fun _ => kept_getFullPathWithSlash

theorem tame_fullPath {a : Addr} : Tame (fullPath a : MetaM σ _) := tame_cache fun _ => kept_getFullPath

theorem tame_getDentry {ino : InodeID} : Tame (getDentry ino : MetaM σ _) := tame_cache fun _ => kept_getDentry

theorem tame_headResp : Tame (headResp : MetaM σ _) := Prog.preserves_lift trivial fun s hs _ => ⟨hs, .refl s.cache, trivial⟩

theorem tame_isExpired {a : Addr} : Tame (isExpired a : MetaM σ _) :=
  Prog.preserves_lift trivial fun s hs _ => ⟨hs, .refl s.cache, trivial⟩

theorem tame_needsRefresh {a : Addr} : Tame (needsRefresh a : MetaM σ _) :=
  Prog.preserves_lift trivial fun s hs _ => ⟨hs, .refl s.cache, trivial⟩

theorem tame_incTtl {opt : MetaOpt} {a : Addr} : Tame (incTtl opt a : MetaM σ _) :=
  tame_cache fun _ => kept_store Mild.incTtl

theorem tame_updateInode {ino : InodeID} {u : InodeUpdateAttr} : Tame (updateInode ino u : MetaM σ _) :=
  tame_cache fun _ => kept_updateInode

theorem tame_pure {x : α} : Tame (pure x : MetaM σ α) := trivial

theorem tame_deref {d : Option Addr} : Tame (deref d : MetaM σ _) := by
  cases d <;> trivial

/-! ### The requests -/

variable {opt : MetaOpt} {st : Stor σ} {pino : InodeID} {name : Str}

theorem tame_getRemoteObj {parent : Addr} : Tame (getRemoteObj st parent name) :=
  tame_pathWithSlash.bind fun _ => tame_headResp.bind fun _ => tame_call.bind fun _ =>
    .ite tame_pure (tame_call.bind fun _ => tame_pure)

theorem tame_addVirtualDir {parent : Addr} : Tame (addVirtualDir opt parent name : MetaM σ _) :=
  tame_readDentry.bind fun _ => (tame_cache fun _ => kept_createNew).bind fun _ => tame_incTtl.bind fun _ => tame_pure

theorem tame_findRemote : Tame (findRemote opt st pino name) := by
  refine tame_getDentry.bind fun parent => ?_
  cases parent with
  | none => trivial
  | some parent =>
    refine tame_getRemoteObj.bind fun ⟨obj, exist, isDir⟩ => .ite ?_ ?_
    · exact (tame_cache fun _ => kept_createDentryFromObj).bind fun _ => tame_incTtl.bind fun _ => tame_pure
    · exact tame_pathWithSlash.bind fun _ => (tame_call.bind fun _ => tame_pure).bind fun _ =>
        .ite tame_addVirtualDir.map tame_pure

theorem tame_headKey {a : Addr} {isDir : Bool} : Tame (headKey a isDir : MetaM σ _) :=
  .ite tame_pathWithSlash tame_fullPath

theorem tame_revalidate {a : Addr} : Tame (revalidate opt st a) :=
  tame_readDentry.bind fun _ => tame_headKey.bind fun _ => tame_headResp.bind fun _ =>
    tame_call.bind fun _ => .ite (tame_incTtl.bind fun _ => tame_pure)
      (tame_updateInode.bind fun _ => tame_incTtl.bind fun _ => tame_pure)

theorem tame_findDentry {onlyLocal : Bool} : Tame (findDentry opt st pino name onlyLocal) := by
  refine (tame_cache fun _ => kept_findDentry).bind fun d => ?_
  cases d with
  | none => exact .ite tame_pure tame_findRemote
  | some a => exact tame_isExpired.bind fun _ => .ite tame_revalidate trivial

theorem tame_fileKey {parent : Addr} {isRoot : Bool} : Tame (fileKey parent isRoot name : MetaM σ _) :=
  .ite tame_pure (tame_fullPath.bind fun _ => tame_pure)

theorem tame_newKey {parent : Addr} {mode : Mode} : Tame (newKey parent name mode : MetaM σ _) :=
  tame_readDentry.bind fun _ => tame_fileKey.bind fun _ => tame_pure

theorem tame_createDentry {mode : Mode} : Tame (createDentry opt st pino name mode) := by
  refine tame_findDentry.bind fun d => ?_
  cases d with
  | some d => trivial
  | none =>
    exact (tame_getDentry.bind fun _ => tame_deref).bind fun _ => tame_newKey.bind fun _ => tame_readDentry.bind fun _ =>
      tame_call.bind fun _ => tame_cache fun _ => kept_createNew

theorem tame_removeDentry : Tame (removeDentry opt st pino name) := by
  refine tame_findDentry.bind fun d => ?_
  cases d with
  | none => trivial
  | some a =>
    refine tame_fullPath.bind fun _ => tame_readDentry.bind fun _ => .ite (.ite trivial ?_) ?_
    · exact tame_call.bind fun _ => tame_cache fun _ => kept_removeDentry
    · exact tame_call.bind fun _ => tame_cache fun _ => kept_removeDentry

theorem tame_refreshLoop {ino : InodeID} {pre : Str} (fuel : Nat) (marker : Str) :
    Tame (refreshLoop st ino pre fuel marker) := by
  induction fuel generalizing marker with
  | zero => trivial
  | succ fuel ih =>
    refine tame_call.bind fun resp => ?_
    cases buildFtree pre resp with
    | none => trivial
    | some children => exact (tame_cache fun _ => kept_buildDentries).bind fun _ => .ite (ih _) tame_pure

theorem tame_refreshSubDentries {fuel : Nat} {a : Addr} : Tame (refreshSubDentries st fuel a) :=
  tame_pathWithSlash.bind fun _ => tame_readDentry.bind fun _ => (tame_refreshLoop _ _).bind fun _ =>
    tame_cache fun _ => kept_clearUnsyncDentry

theorem tame_listChildren {a : Addr} : Tame (listChildren a : MetaM σ _) :=
  (tame_cache fun _ => kept_childrenList).bind fun _ => tame_pure

theorem tame_loadSubDentries {fuel : Nat} {ino : InodeID} : Tame (loadSubDentries st fuel ino) := by
  refine tame_getDentry.bind fun d => ?_
  cases d with
  | none => trivial
  | some a =>
    exact tame_needsRefresh.bind fun _ => .ite (tame_refreshSubDentries.bind fun _ => tame_listChildren) tame_listChildren

theorem tame_request {fuel : Nat} (r : Request) : Tame (r.prog opt st fuel) := by
  cases r with
  | find => exact tame_findDentry.map
  | create => exact tame_createDentry.map
  | remove => exact tame_removeDentry
  | load => exact tame_loadSubDentries.map
  | updateSize => exact tame_updateInode

/-! ### Reachable caches -/

/-- The caches that the requests lead to: each runs to its end, returning or throwing, over any store in any
    state and at any time. -/
inductive Reachable (opt : MetaOpt) : LocalMemMeta → Prop where
  | new (now : Timespec) : Reachable opt (.new opt now)
  | request {m : LocalMemMeta} (h : Reachable opt m) {σ : Type} (st : Stor σ) (fuel : Nat) (r : Request) (t : σ)
      (now : Timespec) (garbage : Garbage) :
      Reachable opt (endState ((r.prog opt st fuel).run { cache := m, stor := t, now, garbage })).cache

theorem Reachable.inv {m : LocalMemMeta} (h : Reachable opt m) : Inv m := by
  induction h with
  | new now => exact .new opt now
  | request _ st fuel r t now garbage ih =>
    have htame : Tame (r.prog opt st fuel) := tame_request r
    exact (htame.run (show CacheInv ⟨_, t, now, garbage⟩ from ih)).1

theorem Reachable.options {m : LocalMemMeta} (h : Reachable opt m) : m.opt = opt := by
  induction h with
  | new now => rfl
  | request _ st fuel r t now garbage ih =>
    have htame : Tame (r.prog opt st fuel) := tame_request r
    exact (htame.run (show CacheInv ⟨_, t, now, garbage⟩ from Reachable.inv ‹_›)).2.opt.trans ih

/-- A new mount with a timeout of a minute. -/
def newCache : LocalMemMeta := .new ⟨0, 0, 60⟩ ⟨0, 0⟩

def newWorld (t : σ) : World σ := ⟨newCache, t, ⟨0, 0⟩, noGarbage⟩

end MetaImpl

end Catfs
