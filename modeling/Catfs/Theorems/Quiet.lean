import Catfs.Bucket
import Catfs.Theorems.TreeShape

/-! # Steps that leave the tree alone

Most steps of a request look at the cache, or change attributes and expiry times. They make no dentry, and add or
remove no child. -/

namespace Catfs

open Lib MetaM
open EStateM (Result)

namespace LocalMemMeta
variable {α β : Type} {m m' : LocalMemMeta} {a : Addr}

/-- From `m` to `m'` no dentry was made and no children changed. -/
structure Still (m m' : LocalMemMeta) : Prop where
  grow : Grow m m'
  next : m'.heapNext = m.heapNext
  children : ∀ a, (m'.heap a).children = (m.heap a).children
  complete : ∀ a, (m'.heap a).complete = (m.heap a).complete

theorem Still.refl (m : LocalMemMeta) : Still m m := ⟨.refl m, rfl, fun _ => rfl, fun _ => rfl⟩

instance : IsTrans LocalMemMeta Still := ⟨fun _ _ _ h h' => ⟨h.grow.trans h'.grow, h'.next.trans h.next,
  fun a => (h'.children a).trans (h.children a), fun a => (h'.complete a).trans (h.complete a)⟩⟩

theorem Still.set {f : Dentry → Dentry} (hf : Mild f) (hc : ∀ d, (f d).children = d.children)
    (hcomplete : ∀ d, (f d).complete = d.complete) : Still m (m.set a f) where
  grow := .set hf
  next := rfl
  children b := by
    rw [heap_set]
    split
    · rename_i h
      rw [hc, h]
    · rfl
  complete b := by
    rw [heap_set]
    split
    · rename_i h
      rw [hcomplete, h]
    · rfl

theorem Still.getChild {n : Str} (h : Still m m') : (m'.heap a).getChild n = (m.heap a).getChild n := by
  rw [Dentry.getChild, h.children a, Dentry.getChild]

theorem Still.attached (h : Still m m') : Attached m' a ↔ Attached m a :=
  ⟨.mono h.grow.root.symm fun _ _ _ hc => h.getChild ▸ hc, .mono h.grow.root fun _ _ _ hc => h.getChild.trans hc⟩

theorem Still.lookup {ino : InodeID} (hm : Inv m) (hm' : Inv m') (h : Still m m') : m'.lookup ino = m.lookup ino := by
  cases hl : m'.lookup ino with
  | some a =>
    obtain ⟨ha, hi⟩ := hm'.indexed _ _ hl
    rw [h.next] at ha
    rw [← hi, h.grow.ino a ha, hm.index a ha]
  | none =>
    cases hl' : m.lookup ino with
    | some a =>
      rw [h.grow.index _ _ hl'] at hl
      cases hl
    | none => rfl

theorem still_issue : Still m m.issue := ⟨.issue, rfl, fun _ => rfl, fun _ => rfl⟩

theorem attached_issue : m.issue.Attached a ↔ m.Attached a := still_issue.attached

/-- And no inode number was handed out. -/
structure Idle (m m' : LocalMemMeta) : Prop extends Still m m' where
  nextInodeId : m'.nextInodeId = m.nextInodeId

theorem Idle.refl (m : LocalMemMeta) : Idle m m := ⟨.refl m, rfl⟩

instance : Std.Refl Idle := ⟨Idle.refl⟩

instance : IsTrans LocalMemMeta Idle := ⟨fun _ _ _ h h' =>
  ⟨trans_of Still h.toStill h'.toStill, h'.nextInodeId.trans h.nextInodeId⟩⟩

/-- `f` leaves the tree alone. -/
abbrev Calm (f : LocalM α) : Prop := Keeps Inv Idle (fun _ => True) f (fun _ _ => True)

theorem calm_bind {f : LocalM α} {g : α → LocalM β} (hf : Calm f) (hg : ∀ a, Calm (g a)) : Calm (f >>= g) :=
  Keeps.bind hf hg

theorem calm_pure {x : α} : Calm (pure x) := Keeps.pure fun _ _ _ => trivial

theorem calm_throw {e : Err} : Calm (throw e : LocalM α) := Keeps.throw

theorem calm_get : Calm get := fun m hm _ => ⟨hm, .refl m, trivial⟩

theorem calm_load : Calm (load a) := fun m hm _ => ⟨hm, .refl m, trivial⟩

theorem calm_getDentry {ino : InodeID} : Calm (getDentry ino) := fun m hm _ => ⟨hm, .refl m, trivial⟩

theorem calm_getParent {ino : InodeID} : Calm (getParent ino) := by
  refine calm_bind calm_getDentry fun d => ?_
  cases d with
  | none => exact calm_throw
  | some p => exact calm_pure

theorem calm_findDentry {pino : InodeID} {name : Str} : Calm (findDentry pino name) :=
  calm_bind calm_getParent fun _ => calm_bind calm_load fun _ => calm_pure

theorem calm_getFullPath : Calm (getFullPath a) := by
  refine calm_bind calm_get fun m => ?_
  split
  · exact calm_pure
  · exact calm_throw

theorem calm_getFullPathWithSlash : Calm (getFullPathWithSlash a) :=
  calm_bind calm_load fun _ => .ite (fun _ => calm_pure) fun _ => calm_bind calm_getFullPath fun _ => calm_pure

theorem calm_childrenList : Calm (childrenList a) := calm_bind calm_get fun _ => calm_pure

theorem calm_incTtl {now : Timespec} {t : Nat} : Calm (store a (·.incTtl now t)) := fun _ hm _ =>
  ⟨hm.set Mild.incTtl, ⟨.set Mild.incTtl (fun _ => rfl) fun _ => rfl, rfl⟩, trivial⟩

theorem calm_updateInode {ino : InodeID} {u : InodeUpdateAttr} : Calm (updateInode ino u) := by
  refine calm_bind calm_getParent fun a => ?_
  exact fun _ hm _ => ⟨hm.set Mild.apply, ⟨.set (f := InodeUpdateAttr.apply u) Mild.apply (fun _ => rfl) fun _ => rfl, rfl⟩,
    trivial⟩

/-! ### Making a dentry -/

/-- An operation that makes a dentry under the directory `pino`, or fails. -/
def MakesChild (pino : InodeID) (name : Str) (f : Timespec → LocalM Addr) : Prop := ∀ now m, Inv m →
  (∃ p inode, m.lookup pino = some p ∧ inode.ino = m.nextInodeId ∧
    f now m = .ok m.heapNext (m.issue.link p name inode)) ∨
  ∃ e m', m.lookup pino = none ∧ f now m = .error e m' ∧ (m' = m ∨ m' = m.issue)

theorem makes_fromObj {pino : InodeID} {name : Str} {obj : ObjInfo} {isDir : Bool} :
    MakesChild pino name fun now => createDentryFromObj now pino name obj isDir := by
  intro now m hm
  cases h : m.lookup pino with
  | none => exact .inr ⟨_, m, rfl, run_createDentryFromObj_none h, .inl rfl⟩
  | some p => exact .inl ⟨p, m.objInode now obj isDir, rfl, rfl, run_createDentryFromObj h (hm.indexed _ _ h).1⟩

theorem makes_new {pino : InodeID} {name : Str} {mode : Mode} {gid uid : Nat} : MakesChild pino name (fun now => do
    let inode ← createNewInode now mode gid uid
    LocalMemMeta.createDentry pino name inode) := by
  intro now m hm
  simp only [bind_ok run_createNewInode]
  cases h : m.lookup pino with
  | none =>
    have hg : getParent pino m.issue = .error (.invalidInodeID pino) m.issue := by rw [run_getParent, lookup_issue, h]
    have hc : LocalMemMeta.createDentry pino name (m.newInode now mode gid uid) m.issue =
        .error (.invalidInodeID pino) m.issue := by rw [LocalMemMeta.createDentry, bind_error hg]
    exact .inr ⟨_, m.issue, rfl, hc, .inr rfl⟩
  | some p =>
    exact .inl ⟨p, m.newInode now mode gid uid, rfl, rfl, run_createDentry (m := m.issue) h (hm.indexed _ _ h).1⟩

theorem MakesChild.run {pino : InodeID} {name : Str} {f : Timespec → LocalM Addr} {p : Addr} (hf : MakesChild pino name f)
    (hm : Inv m) (hp : m.lookup pino = some p) (now : Timespec) :
    ∃ inode, inode.ino = m.nextInodeId ∧ f now m = .ok m.heapNext (m.issue.link p name inode) := by
  rcases hf now m hm with ⟨p', inode, hp', hi, hrun⟩ | ⟨e, m', hnone, -⟩
  · obtain rfl : p' = p := Option.some.inj (hp'.symm.trans hp)
    exact ⟨inode, hi, hrun⟩
  · rw [hp] at hnone
    cases hnone

end LocalMemMeta

open LocalMemMeta

/-- The step adds no child and removes none. -/
def MetaAct.quiet (l : MetaAct) : Bool :=
  match l with
  | .find .. | .insert .. | .erase .. | .build .. | .sweep _ => false
  | _ => true

namespace MetaImpl
variable {σ α β : Type} {view : σ → β}

/-- The tree and what `view` shows of the store stay as they are. -/
structure Aside (view : σ → β) (s s' : World σ) : Prop where
  cache : Idle s.cache s'.cache
  view : view s'.stor = view s.stor

instance : Std.Refl (Aside view) := ⟨fun s => ⟨.refl s.cache, rfl⟩⟩
instance : IsTrans (World σ) (Aside view) := ⟨fun _ _ _ h h' =>
  ⟨trans_of Idle h.cache h'.cache, h'.view.trans h.view⟩⟩

abbrev Quiet (view : σ → β) (p : MetaM σ α) : Prop := p.Preserves (fun l => l.quiet = true) CacheInv (Aside view)

/-- Nothing that leaves the tree alone changes `K`. -/
def Stays (K : LocalMemMeta → Prop) : Prop := ∀ m m', m.Inv → Still m m' → K m → K m'

theorem stays_true : Stays fun _ => True := fun _ _ _ _ _ => trivial

theorem stays_lookup {ino : InodeID} {a : Addr} : Stays fun m => m.lookup ino = some a := fun _ _ _ h hk => h.grow.index _ _ hk

/-- Looking an object up and listing leave alone what `view` shows of the store. -/
structure Reads (st : Stor σ) (view : σ → β) : Prop where
  head : ∀ req resp t, view (endState (st.headFile req resp t)) = view t
  list : ∀ req t, view (endState (st.listObjects req t)) = view t

theorem reads_const {st : Stor σ} : Reads st fun _ => () := ⟨fun _ _ _ => rfl, fun _ _ => rfl⟩

theorem reads_serves {c : S3Client σ} {view : σ → Bucket} (hc : c.Serves view) : Reads (s3Stor c) view where
  head req resp t := by
    simp only [s3Stor]
    cases hk : view t req.objKey with
    | none =>
      obtain ⟨msg, t', hr, hv⟩ := hc.headNone t req.objKey hk
      rw [hr]
      exact hv
    | some body =>
      obtain ⟨r, t', hr, -, hv⟩ := hc.head t req.objKey body hk
      rw [hr]
      exact hv
  list req t := by
    obtain ⟨r, t', hr, hv, -⟩ := hc.list t { delimiter := slash, marker := req.marker, maxKeys := req.max, pre := req.pre } rfl
    have ho : orServerError (c.listObjects { delimiter := slash, marker := req.marker, maxKeys := req.max, pre := req.pre }) t =
        .ok r t' := by rw [orServerError, hr]
    simp only [s3Stor]
    rw [bind_ok ho]
    exact hv

/-! ### The steps -/

theorem quiet_cache {l : MetaAct} {f : Timespec → LocalM α} (hl : l.quiet = true) (h : ∀ now, Calm (f now)) :
    Quiet view (cache l f : MetaM σ α) := by
  refine Prog.preserves_lift hl fun s hs _ => ?_
  have := h s.now s.cache hs trivial
  simp only [onCache, zoom]
  cases hf : f s.now s.cache <;> rw [hf] at this
  · exact ⟨this.1, ⟨this.2.1, rfl⟩, trivial⟩
  · exact ⟨this.1, ⟨this.2, rfl⟩⟩

theorem quiet_call {l : MetaAct} {f : EStateM Err σ α} (hl : l.quiet = true) (h : ∀ t, view (endState (f t)) = view t) :
    Quiet view (call l f) := by
  refine Prog.preserves_lift hl fun s hs _ => ?_
  have := h s.stor
  simp only [zoom]
  cases hf : f s.stor <;> rw [hf] at this
  · exact ⟨hs, ⟨.refl _, this⟩, trivial⟩
  · exact ⟨hs, ⟨.refl _, this⟩⟩

theorem quiet_look {l : MetaAct} {f : World σ → α} (hl : l.quiet = true) :
    Quiet view (Prog.lift l (do return f (← get)) : MetaM σ α) :=
  Prog.preserves_lift hl fun s hs _ => ⟨hs, refl_of (Aside view) s, trivial⟩

theorem quiet_readDentry {a : Addr} : Quiet view (readDentry a : MetaM σ _) := quiet_cache rfl fun _ => calm_load

theorem quiet_pathWithSlash {a : Addr} : Quiet view (pathWithSlash a : MetaM σ _) :=
  quiet_cache rfl fun _ => calm_getFullPathWithSlash

theorem quiet_fullPath {a : Addr} : Quiet view (fullPath a : MetaM σ _) := quiet_cache rfl fun _ => calm_getFullPath

theorem quiet_getDentry {ino : InodeID} : Quiet view (getDentry ino : MetaM σ _) := quiet_cache rfl fun _ => calm_getDentry

theorem quiet_incTtl {opt : MetaOpt} {a : Addr} : Quiet view (incTtl opt a : MetaM σ _) := quiet_cache rfl fun _ => calm_incTtl

theorem quiet_updateInode {ino : InodeID} {u : InodeUpdateAttr} : Quiet view (updateInode ino u : MetaM σ _) :=
  quiet_cache rfl fun _ => calm_updateInode

theorem quiet_deref {d : Option Addr} : Quiet view (deref d : MetaM σ _) := by
  cases d <;> trivial

/-! ### Parts of requests -/

theorem quiet_fileKey {parent : Addr} {isRoot : Bool} {name : Str} : Quiet view (fileKey parent isRoot name : MetaM σ _) :=
  .ite trivial (quiet_fullPath.bind fun _ => trivial)

theorem quiet_newKey {parent : Addr} {name : Str} {mode : Mode} : Quiet view (newKey parent name mode : MetaM σ _) :=
  quiet_readDentry.bind fun _ => quiet_fileKey.bind fun _ => trivial

theorem quiet_listChildren {a : Addr} : Quiet view (listChildren a : MetaM σ _) :=
  (quiet_cache rfl fun _ => calm_childrenList).bind fun _ => trivial

section
variable {st : Stor σ} (hst : Reads st view)
include hst

theorem quiet_headFile {key : Str} {resp : HeadFileResp} : Quiet view (headFile st key resp) :=
  quiet_call rfl fun t => hst.head _ resp t

theorem quiet_getRemoteObj {parent : Addr} {name : Str} : Quiet view (getRemoteObj st parent name) :=
  quiet_pathWithSlash.bind fun _ => (quiet_look rfl).bind fun _ => (quiet_headFile hst).bind fun _ =>
    .ite trivial ((quiet_headFile hst).bind fun _ => trivial)

theorem quiet_isRemoteDirExist {path : Str} : Quiet view (isRemoteDirExist st path) :=
  (quiet_call rfl fun t => hst.list _ t).bind fun _ => trivial

theorem quiet_revalidate {opt : MetaOpt} {a : Addr} : Quiet view (revalidate opt st a) :=
  quiet_readDentry.bind fun _ => (Prog.Preserves.ite quiet_pathWithSlash quiet_fullPath).bind fun _ =>
    (quiet_look rfl).bind fun _ => (quiet_headFile hst).bind fun _ =>
      .ite (quiet_incTtl.bind fun _ => trivial) (quiet_updateInode.bind fun _ => quiet_incTtl.bind fun _ => trivial)

end

theorem returns_revalidate {opt : MetaOpt} {st : Stor σ} {a : Addr} : (revalidate opt st a).Returns (· = some a) := by
  refine Prog.Returns.bind fun d => Prog.Returns.bind fun path => Prog.Returns.bind fun _ => Prog.Returns.bind fun resp => ?_
  split
  · exact Prog.Returns.bind fun _ => Prog.returns_pure rfl
  · exact Prog.Returns.bind fun _ => Prog.Returns.bind fun _ => Prog.returns_pure rfl

/-! ### The clock -/

/-- Only the clock moved, and uninitialised memory. -/
structure Later (s s' : World σ) : Prop where
  cache : s'.cache = s.cache
  stor : s'.stor = s.stor
  now : s.now.sec < s'.now.sec ∨ s.now.sec = s'.now.sec ∧ s.now.nsec ≤ s'.now.nsec

theorem isExpired_later {s s' : World σ} (h : Later s s') {d : Dentry} (hd : d.isExpired s'.now = false) :
    d.isExpired s.now = false := by
  have := h.now
  unfold Dentry.isExpired at hd ⊢
  split at hd <;> split <;> simp_all <;> omega

end MetaImpl

end Catfs
