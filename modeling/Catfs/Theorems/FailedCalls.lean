import Catfs.Lib.Hoare
import Catfs.Theorems.LogClient
import Catfs.Theorems.Quiet

/-! # Calls of the store that fail

`find_dentry`, `create_dentry` and `remove_dentry` change the tree only after their last call of the store. A call
that throws reaches the caller and leaves the bucket, the links and the next inode number as they were. -/

namespace Catfs

open Lib MetaM LocalMemMeta
open EStateM (Result)

namespace LocalMemMeta
variable {m m' m'' : LocalMemMeta} {a : Addr}

/-- In the tree, the entry `name` of the directory `pino` has the number `ino`. -/
def Linked (m : LocalMemMeta) (pino : InodeID) (name : Str) (ino : InodeID) : Prop :=
  ∃ p ch, m.Attached p ∧ (m.heap p).inode.ino = pino ∧ (m.heap p).getChild name = some ch ∧ (m.heap ch).inode.ino = ino

/-- The links of the tree, those of the parts that were removed from it, and the next inode number are the same. -/
structure SameTree (m m' : LocalMemMeta) : Prop where
  links : ∀ pino name ino, m'.Linked pino name ino ↔ m.Linked pino name ino
  children : ∀ a n, (m'.heap a).getChild n = (m.heap a).getChild n
  index : ∀ ino, m'.lookup ino = m.lookup ino
  nextInodeId : m'.nextInodeId = m.nextInodeId

theorem Idle.sameTree (hm : Inv m) (hm' : Inv m') (h : Idle m m') : SameTree m m' where
  links pino name ino := by
    constructor
    · rintro ⟨p, ch, hp, hpino, hch, hino⟩
      have hp' := h.attached.mp hp
      have hch' : (m.heap p).getChild name = some ch := h.getChild.symm.trans hch
      have hlt := (hm.child p name ch (hp'.allocated hm) hch').2.1
      exact ⟨p, ch, hp', (h.grow.ino p (hp'.allocated hm)).symm.trans hpino, hch', (h.grow.ino ch hlt).symm.trans hino⟩
    · rintro ⟨p, ch, hp, hpino, hch, hino⟩
      have hlt := (hm.child p name ch (hp.allocated hm) hch).2.1
      exact ⟨p, ch, h.attached.mpr hp, (h.grow.ino p (hp.allocated hm)).trans hpino, h.getChild.trans hch,
        (h.grow.ino ch hlt).trans hino⟩
  children a n := h.getChild
  index ino := h.lookup hm hm'
  nextInodeId := h.nextInodeId

end LocalMemMeta

namespace MetaImpl
variable {σ α β : Type} {view : σ → β} {opt : MetaOpt} {st : Stor σ} {pino : InodeID} {name : Str} {a : Addr}
  {s₀ s : World σ}

/-! ### The calls -/

/-- The requests on one entry. -/
inductive EntryCall where
  | find (pino : InodeID) (name : Str) (onlyLocal : Bool)
  | create (pino : InodeID) (name : Str) (mode : Mode)
  | remove (pino : InodeID) (name : Str)
  deriving DecidableEq, Repr

/-- The call, with its answer dropped. -/
def EntryCall.prog (opt : MetaOpt) (st : Stor σ) : EntryCall → MetaM σ Unit
  | .find pino name onlyLocal => (fun _ => ()) <$> findDentry opt st pino name onlyLocal
  | .create pino name mode => (fun _ => ()) <$> createDentry opt st pino name mode
  | .remove pino name => removeDentry opt st pino name

/-- What the call keeps of its work when it fails: what its lookup, run alone, leaves in the cache. -/
def EntryCall.looked (opt : MetaOpt) (st : Stor σ) : EntryCall → World σ → LocalMemMeta
  | .find .., s => s.cache
  | .create pino name _, s => (endState ((findDentry opt st pino name false).run s)).cache
  | .remove pino name, s => (endState ((findDentry opt st pino name false).run s)).cache

/-- The step is a call of the store. -/
def isCall (l : MetaAct) : Bool :=
  match l with
  | .head _ | .list .. | .put _ | .delete _ => true
  | _ => false

/-- Some call of the store throws `e`. -/
def StorThrows (p : MetaM σ α) (s : World σ) (e : Err) : Prop := ∃ l, isCall l = true ∧ p.thrown s = some (l, e)

/-- Calls that look something up leave alone what `view` shows of the store, and so do calls that throw. -/
structure FailsClean (st : Stor σ) (view : σ → β) : Prop extends Reads st view where
  put : ∀ req t e t', st.putFile req t = .error e t' → view t' = view t
  delete : ∀ req t e t', st.deleteFile req t = .error e t' → view t' = view t

/-! ### Before the last call -/

/-- Nothing was changed since `s₀`. -/
def Before (view : σ → β) (s₀ s : World σ) : Prop := CacheInv s ∧ Aside view s₀ s

/-- And a fact about the tree. -/
def BeforeAnd (view : σ → β) (s₀ : World σ) (K : LocalMemMeta → Prop) (s : World σ) : Prop := Before view s₀ s ∧ K s.cache

/-- The program throws only while nothing was changed. -/
abbrev ThrowsEarly (view : σ → β) (s₀ : World σ) (P : World σ → Prop) (p : MetaM σ α) (Q : α → World σ → Prop) : Prop :=
  Prog.Triple (fun _ _ => True) (Before view s₀) P p Q

theorem early_quiet {K : LocalMemMeta → Prop} (hK : Stays K) {p : MetaM σ α} (hp : Quiet view p) :
    ThrowsEarly view s₀ (BeforeAnd view s₀ K) p fun _ => BeforeAnd view s₀ K :=
  Prog.triple_of_preserves hp (fun _ hs => hs.1.1)
    (fun _ _ hs hm hr => ⟨⟨hm, trans_of (Aside view) hs.1.2 hr⟩, hK _ _ hs.1.1 hr.cache.toStill hs.2⟩) fun _ hs => hs.1

/-- A step of the cache that does not throw. -/
theorem early_cache {l : MetaAct} {f : Timespec → LocalM α} {P : World σ → Prop} {Q : α → World σ → Prop}
    (h : ∀ s, P s → ∃ r m', f s.now s.cache = .ok r m' ∧ Q r { s with cache := m' }) :
    ThrowsEarly view s₀ P (cache l f) Q := by
  refine Prog.triple_lift fun s hs _ => ?_
  obtain ⟨r, m', hrun, hQ⟩ := h s hs
  simp only [onCache, zoom, hrun]
  exact hQ

/-- After the last call: the directory is still there, and what `view` shows is as it was. -/
structure AfterCalls (view : σ → β) (s₀ : World σ) (pino : InodeID) (s : World σ) : Prop where
  inv : Inv s.cache
  view : view s.stor = view s₀.stor
  dir : ∃ p, s.cache.lookup pino = some p

theorem early_incTtl : ThrowsEarly view s₀ (AfterCalls view s₀ pino) (incTtl opt a) fun _ => AfterCalls view s₀ pino :=
  early_cache fun _ hs => ⟨(), _, run_store, hs.inv.set Mild.incTtl, hs.view, hs.dir⟩

/-- A dentry is made under a directory that is there. -/
theorem made_child {f : Timespec → LocalM Addr} (hf : MakesChild pino name f) (hm : Inv s.cache)
    (hp : ∃ p, s.cache.lookup pino = some p) :
    ∃ r m', f s.now s.cache = .ok r m' ∧ Inv m' ∧ ∃ p, m'.lookup pino = some p := by
  obtain ⟨p, hp⟩ := hp
  have halloc := (hm.indexed _ _ hp).1
  obtain ⟨inode, hino, hrun⟩ := hf.run hm hp s.now
  have hfresh : Fresh s.cache.issue inode.ino := hino ▸ hm.fresh
  exact ⟨_, _, hrun, hm.issue.link halloc hfresh, p, (Grow.issue.trans (.link hm.issue halloc hfresh)).index _ _ hp⟩

theorem early_insert {l : MetaAct} {f : Timespec → LocalM Addr} (hf : MakesChild pino name f) :
    ThrowsEarly view s₀ (AfterCalls view s₀ pino) (cache l f) fun _ => AfterCalls view s₀ pino := by
  refine early_cache fun s hs => ?_
  obtain ⟨r, m', hrun, hm', hdir⟩ := made_child hf hs.inv hs.dir
  exact ⟨r, m', hrun, hm', hs.view, hdir⟩

/-! ### Lookups -/

/-- After a lookup: one that found nothing changed nothing. -/
def Sought (view : σ → β) (s₀ : World σ) (pino : InodeID) (r : Option Addr) (s : World σ) : Prop :=
  AfterCalls view s₀ pino s ∧ (r = none → Before view s₀ s)

theorem BeforeAnd.kept {p : Addr} (hs : BeforeAnd view s₀ (fun m => m.lookup pino = some p) s) : AfterCalls view s₀ pino s :=
  ⟨hs.1.1, hs.1.2.view, p, hs.2⟩

theorem early_addVirtualDir {p : Addr} :
    ThrowsEarly view s₀ (BeforeAnd view s₀ fun m => m.lookup pino = some p) (addVirtualDir opt p name)
      fun _ => AfterCalls view s₀ pino := by
  have hread : ThrowsEarly view s₀ (BeforeAnd view s₀ fun m => m.lookup pino = some p) (readDentry p) fun d s =>
      d.inode.ino = pino ∧ BeforeAnd view s₀ (fun m => m.lookup pino = some p) s :=
    early_cache fun s hs => ⟨_, _, run_load, (hs.1.1.indexed _ _ hs.2).2, hs⟩
  refine hread.bind fun d => Prog.Triple.of_fact ?_
  rintro rfl
  have hmake : ThrowsEarly view s₀ (AfterCalls view s₀ d.inode.ino) (do
      let ch ← cache (.insert d.inode.ino name) fun now => do
        let inode ← createNewInode now d.inode.mode d.inode.gid d.inode.uid
        LocalMemMeta.createDentry d.inode.ino name inode
      incTtl opt ch
      pure ch) fun _ => AfterCalls view s₀ d.inode.ino :=
    (early_insert makes_new).bind fun _ => early_incTtl.bind fun _ => Prog.triple_pure fun _ hs => hs
  exact hmake.pre fun _ hs => hs.kept

section
variable (hst : Reads st view)
include hst

theorem early_findRemote (p : Addr) :
    ThrowsEarly view s₀ (BeforeAnd view s₀ fun m => m.lookup pino = some p) (findRemote opt st pino name)
      (Sought view s₀ pino) := by
  have hdir : ThrowsEarly view s₀ (BeforeAnd view s₀ fun m => m.lookup pino = some p) (getDentry pino) fun r s =>
      r = some p ∧ BeforeAnd view s₀ (fun m => m.lookup pino = some p) s :=
    early_cache fun s hs => ⟨_, _, run_getDentry, hs.2, hs⟩
  refine hdir.bind fun r => Prog.Triple.of_fact ?_
  rintro rfl
  refine (early_quiet stays_lookup (quiet_getRemoteObj hst)).bind ?_
  rintro ⟨obj, exist, isDir⟩
  cases exist with
  | true =>
    have hmake : ThrowsEarly view s₀ (AfterCalls view s₀ pino) (do
        let d ← cache (.insert pino name) fun now => createDentryFromObj now pino name obj isDir
        incTtl opt d
        pure (some d)) (Sought view s₀ pino) :=
      (early_insert makes_fromObj).bind fun _ => early_incTtl.bind fun _ =>
        Prog.triple_pure fun _ hs => ⟨hs, fun h => by cases h⟩
    exact hmake.pre fun _ hs => hs.kept
  | false =>
    refine (early_quiet stays_lookup quiet_pathWithSlash).bind fun pre =>
      (early_quiet stays_lookup (quiet_isRemoteDirExist hst)).bind fun exist => ?_
    cases exist with
    | true => exact (early_addVirtualDir.post fun _ _ hs => ⟨hs, fun h => by cases h⟩).map
    | false => exact Prog.triple_pure fun _ hs => ⟨hs.kept, fun _ => hs.1⟩

theorem early_findDentry {onlyLocal : Bool} :
    ThrowsEarly view s₀ (Before view s₀) (findDentry opt st pino name onlyLocal) (Sought view s₀ pino) := by
  have hfind : ThrowsEarly view s₀ (Before view s₀) (cache (.find pino name) fun _ => LocalMemMeta.findDentry pino name)
      fun r s => ∃ p, BeforeAnd view s₀ (fun m => m.lookup pino = some p) s := by
    refine Prog.triple_lift fun s hs _ => ?_
    simp only [onCache, zoom]
    cases hp : s.cache.lookup pino with
    | some p =>
      rw [run_findDentry hp]
      exact ⟨p, hs, hp⟩
    | none =>
      rw [run_findDentry_none hp]
      exact hs
  refine hfind.bind fun d => Prog.triple_exists fun p => ?_
  cases d with
  | none =>
    cases onlyLocal with
    | true => exact Prog.triple_pure fun _ hs => ⟨hs.kept, fun _ => hs.1⟩
    | false => exact early_findRemote hst p
  | some a =>
    refine (early_quiet stays_lookup (quiet_look rfl)).bind fun expired => ?_
    cases expired with
    | true => exact (early_quiet stays_lookup (quiet_revalidate hst)).post fun _ _ hs => ⟨hs.kept, fun _ => hs.1⟩
    | false => exact Prog.triple_pure fun _ hs => ⟨hs.kept, fun _ => hs.1⟩

end

/-! ### What follows the lookup -/

/-- A call of the store that changes nothing when it throws. -/
theorem early_call {K : LocalMemMeta → Prop} {l : MetaAct} {f : EStateM Err σ α}
    (hf : ∀ t e t', f t = .error e t' → view t' = view t) :
    ThrowsEarly view s₀ (BeforeAnd view s₀ K) (call l f) fun _ s => Inv s.cache ∧ K s.cache := by
  refine Prog.triple_lift fun s hs _ => ?_
  simp only [zoom]
  cases hr : f s.stor with
  | ok r t' => exact ⟨hs.1.1, hs.2⟩
  | error e t' => exact ⟨hs.1.1, hs.1.2.cache, (hf _ _ _ hr).trans hs.1.2.view⟩

/-- The last step of a removal. -/
theorem early_erase {p : Addr} : ThrowsEarly view s₀ (fun s => Inv s.cache ∧ s.cache.lookup pino = some p)
    (cache (.erase pino name) fun _ => LocalMemMeta.removeDentry pino name) fun _ _ => True :=
  early_cache fun _ hs => ⟨_, _, run_removeDentry hs.2, trivial⟩

/-- The last step of a creation. -/
theorem early_insertNew {p : Addr} {mode : Mode} {gid uid : Nat} :
    ThrowsEarly view s₀ (fun s => Inv s.cache ∧ s.cache.lookup pino = some p) (cache (.insert pino name) fun now => do
      let inode ← createNewInode now mode gid uid
      LocalMemMeta.createDentry pino name inode) fun _ _ => True := by
  refine early_cache fun s hs => ?_
  have hnew : MakesChild pino name (fun now => do
      let inode ← createNewInode now mode gid uid
      LocalMemMeta.createDentry pino name inode) := makes_new
  obtain ⟨r, m', hrun, -⟩ := made_child hnew hs.1 ⟨p, hs.2⟩
  exact ⟨r, m', hrun, trivial⟩

/-- When a sequence throws, nothing was changed since its first part returned. -/
theorem before_bind {p : MetaM σ (Option Addr)} {g : Option Addr → MetaM σ α} {e : Err} {s' : World σ}
    (hp : ThrowsEarly view s (Before view s) p (Sought view s pino)) (hs : Inv s.cache)
    (hg : ∀ r s₁ q, ThrowsEarly view s₁ (BeforeAnd view s₁ fun m => m.lookup pino = some q) (g r) fun _ _ => True)
    (hrun : (p >>= g).run s = .error e s') : view s'.stor = view s.stor ∧ SameTree (endState (p.run s)).cache s'.cache := by
  have hfirst := hp s ⟨hs, refl_of (Aside view) s⟩ Prog.guarded_trivial
  cases hpr : p.run s with
  | error e₁ s₁ =>
    rw [hpr] at hfirst
    rw [Prog.run_bind_error hpr] at hrun
    obtain ⟨rfl, rfl⟩ := Result.error.inj hrun
    exact ⟨hfirst.2.view, (Idle.refl _).sameTree hfirst.1 hfirst.1⟩
  | ok r s₁ =>
    rw [hpr] at hfirst
    rw [Prog.run_bind_ok hpr] at hrun
    obtain ⟨q, hq⟩ := hfirst.1.dir
    have hrest := hg r s₁ q s₁ ⟨⟨hfirst.1.inv, refl_of (Aside view) s₁⟩, hq⟩ Prog.guarded_trivial
    rw [hrun] at hrest
    exact ⟨hrest.2.view.trans hfirst.1.view, hrest.2.cache.sameTree hfirst.1.inv hrest.1⟩

section
variable (hst : FailsClean st view)
include hst

theorem createDentry_throws {mode : Mode} {e : Err} {s' : World σ} (hs : Inv s.cache)
    (hrun : (createDentry opt st pino name mode).run s = .error e s') :
    view s'.stor = view s.stor ∧ SameTree (endState ((findDentry opt st pino name false).run s)).cache s'.cache := by
  rw [createDentry] at hrun
  refine before_bind (early_findDentry hst.toReads) hs (fun r s₁ q => ?_) hrun
  cases r with
  | some d => exact Prog.triple_pure fun _ _ => trivial
  | none =>
    have hdir : ThrowsEarly view s₁ (BeforeAnd view s₁ fun m => m.lookup pino = some q) (do deref (← getDentry pino))
        fun _ => BeforeAnd view s₁ fun m => m.lookup pino = some q :=
      early_quiet stays_lookup (quiet_getDentry.bind fun _ => quiet_deref)
    refine hdir.bind fun parent => (early_quiet stays_lookup quiet_newKey).bind fun key =>
      (early_quiet stays_lookup quiet_readDentry).bind fun p => ?_
    exact (early_call (hst.put _)).bind fun _ => early_insertNew

theorem removeDentry_throws {e : Err} {s' : World σ} (hs : Inv s.cache)
    (hrun : (removeDentry opt st pino name).run s = .error e s') :
    view s'.stor = view s.stor ∧ SameTree (endState ((findDentry opt st pino name false).run s)).cache s'.cache := by
  rw [removeDentry] at hrun
  refine before_bind (early_findDentry hst.toReads) hs (fun r s₁ q => ?_) hrun
  cases r with
  | none => exact Prog.triple_pure fun _ _ => trivial
  | some a =>
    refine (early_quiet stays_lookup quiet_fullPath).bind fun path =>
      (early_quiet stays_lookup quiet_readDentry).bind fun d => ?_
    split
    · split
      · exact Prog.triple_fail fun _ hs => hs.1
      · exact (early_call (hst.delete _)).bind fun _ => early_erase
    · exact (early_call (hst.delete _)).bind fun _ => early_erase

theorem findDentry_throws {onlyLocal : Bool} {e : Err} {s' : World σ} (hs : Inv s.cache)
    (hrun : (findDentry opt st pino name onlyLocal).run s = .error e s') :
    view s'.stor = view s.stor ∧ SameTree s.cache s'.cache := by
  have hfind : ThrowsEarly view s (Before view s) (findDentry opt st pino name onlyLocal) (Sought view s pino) :=
    early_findDentry hst.toReads
  have h := hfind s ⟨hs, refl_of (Aside view) s⟩ Prog.guarded_trivial
  rw [hrun] at h
  exact ⟨h.2.view, h.2.cache.sameTree hs h.1⟩

/-- A call in which a call of the store throws, or that finds a directory not empty, throws that and leaves the bucket,
    the links and the next inode number as they were, except for what its lookup cached. -/
theorem failed_call_keeps {m : LocalMemMeta} (hm : Reachable opt m) (call : EntryCall) (t : σ) (now : Timespec)
    (garbage : Garbage) {e : Err} (h : StorThrows (call.prog opt st) ⟨m, t, now, garbage⟩ e ∨
      ((∃ pino name, call = .remove pino name) ∧ e = .enotempty ∧
        ∃ s', (call.prog opt st).run ⟨m, t, now, garbage⟩ = .error .enotempty s')) :
    ∃ s', (call.prog opt st).run ⟨m, t, now, garbage⟩ = .error e s' ∧ view s'.stor = view t ∧
      SameTree (call.looked opt st ⟨m, t, now, garbage⟩) s'.cache := by
  have hrun : ∃ s', (call.prog opt st).run ⟨m, t, now, garbage⟩ = .error e s' := by
    rcases h with ⟨l, -, h⟩ | ⟨-, rfl, h⟩
    · exact Prog.run_of_thrown h
    · exact h
  obtain ⟨s', hrun⟩ := hrun
  refine ⟨s', hrun, ?_⟩
  cases call with
  | find pino name onlyLocal => exact findDentry_throws hst hm.inv (Prog.run_map_error hrun)
  | create pino name mode => exact createDentry_throws hst hm.inv (Prog.run_map_error hrun)
  | remove pino name => exact removeDentry_throws hst hm.inv hrun

end

/-- The client over a log, when the service takes no objects. -/
def refusing : S3Client Log := { Log.client with putObject := fun _ _ log => .error (.other []) log }

theorem refusing_failsClean : FailsClean (s3Stor refusing) Log.bucket where
  head := (reads_serves Log.client_serves).head
  list := (reads_serves Log.client_serves).list
  put req t e t' h := by
    obtain ⟨-, rfl⟩ := Result.error.inj h
    rfl
  delete req t e t' h := by cases h

theorem failed_call_keeps_create : ∃ s', ((EntryCall.create ROOT_INODE_ID ['f'] S_IFREG).prog ⟨0, 0, 60⟩
    (s3Stor refusing)).run ⟨newCache, [], ⟨0, 0⟩, noGarbage⟩ = .error (.serverError []) s' ∧ s'.stor.bucket = Log.bucket [] ∧
    SameTree ((EntryCall.create ROOT_INODE_ID ['f'] S_IFREG).looked ⟨0, 0, 60⟩ (s3Stor refusing)
      ⟨newCache, [], ⟨0, 0⟩, noGarbage⟩) s'.cache := by
  have hthrows : StorThrows ((EntryCall.create ROOT_INODE_ID ['f'] S_IFREG).prog ⟨0, 0, 60⟩ (s3Stor refusing))
      ⟨newCache, [], ⟨0, 0⟩, noGarbage⟩ (.serverError []) := ⟨.put ['f'], rfl, by decide +kernel⟩
  exact failed_call_keeps refusing_failsClean (show Reachable ⟨0, 0, 60⟩ newCache from .new ⟨0, 0⟩) _ [] ⟨0, 0⟩ noGarbage
    (.inl hthrows)

end MetaImpl

end Catfs
