import Catfs.Lib.Hoare
import Catfs.Theorems.Quiet
import Catfs.Theorems.Refresh
import Catfs.Theorems.TreePaths

/-! # Complete directories

A complete directory in the tree answers a listing from the cache, so every name that the bucket holds under it must
be a child. Two steps can break this: a sweep that walks into a directory that was not listed, and the removal of an
entry that the bucket still has. -/

namespace Catfs

open Lib MetaM LocalMemMeta
open EStateM (Result)

namespace LocalMemMeta
variable {m m' : LocalMemMeta} {a b c p : Addr} {n : Str} {bucket : Bucket}

/-- Every name that the bucket yields under `a` is a child of `a`. -/
def Holding (bucket : Bucket) (m : LocalMemMeta) (a : Addr) : Prop :=
  ∀ n, bucket.Yields (m.dirPrefix a) n → ∃ ch, (m.heap a).getChild n = some ch

/-- Every complete directory in the tree has the bucket's names. -/
def CompleteHold (bucket : Bucket) (m : LocalMemMeta) : Prop :=
  ∀ a, Attached m a → (m.heap a).complete = true → Holding bucket m a

/-- The name `n` of `p` apart. -/
def CompleteHoldBut (bucket : Bucket) (p : Addr) (n : Str) (m : LocalMemMeta) : Prop :=
  ∀ a, Attached m a → (m.heap a).complete = true → ∀ k, bucket.Yields (m.dirPrefix a) k →
    (∃ ch, (m.heap a).getChild k = some ch) ∨ (a = p ∧ k = n)

theorem CompleteHold.but (h : CompleteHold bucket m) : CompleteHoldBut bucket p n m :=
  fun a ha hc k hy => .inl (h a ha hc k hy)

/-! ### Changes to the tree -/

theorem CompleteHold.still (hm : Inv m) (h : Still m m') (hb : CompleteHold bucket m) : CompleteHold bucket m' := by
  intro a ha hc k hy
  have ha' := h.attached.mp ha
  rw [dirPrefix_grow hm h.grow (ha'.allocated hm)] at hy
  rw [h.getChild]
  exact hb a ha' ((h.complete a).symm.trans hc) k hy

/-- From `m` to `m'` dentries were made, without children and not complete, and nothing lost a child. -/
structure Widened (m m' : LocalMemMeta) : Prop where
  grow : Grow m m'
  complete : ∀ a, a < m.heapNext → (m'.heap a).complete = (m.heap a).complete
  child : ∀ a n, a < m.heapNext → (∃ c, (m.heap a).getChild n = some c) → ∃ c, (m'.heap a).getChild n = some c
  origin : ∀ a n c, a < m.heapNext → (m'.heap a).getChild n = some c →
    (m.heap a).getChild n = some c ∨ m.heapNext ≤ c
  fresh : ∀ a, m.heapNext ≤ a → a < m'.heapNext → (m'.heap a).children = ∅ ∧ (m'.heap a).complete = false

theorem Widened.attached (h : Widened m m') (hm : Inv m) (hm' : Inv m') (ha : Attached m' a) :
    m.heapNext ≤ a ∨ Attached m a := by
  induction ha with
  | root =>
    rw [h.grow.root]
    exact .inr .root
  | @child a c n ha hc ih =>
    rcases ih with ih | ih
    · rw [Dentry.getChild, (h.fresh a ih (ha.allocated hm')).1] at hc
      cases hc
    · exact (h.origin a n c (ih.allocated hm) hc).symm.imp id fun hc => ih.child hc

theorem Widened.completeHold (h : Widened m m') (hm : Inv m) (hm' : Inv m')
    (hb : ∀ a, Attached m a → (m.heap a).complete = true → ∀ k, bucket.Yields (m.dirPrefix a) k →
      (∃ ch, (m.heap a).getChild k = some ch) ∨ ∃ ch, (m'.heap a).getChild k = some ch) : CompleteHold bucket m' := by
  intro a ha hc k hy
  rcases h.attached hm hm' ha with hfresh | ha'
  · rw [(h.fresh a hfresh (ha.allocated hm')).2] at hc
    cases hc
  · have halloc := ha'.allocated hm
    rw [dirPrefix_grow hm h.grow halloc] at hy
    rcases hb a ha' ((h.complete a halloc).symm.trans hc) k hy with hch | hch
    · exact h.child a k halloc hch
    · exact hch

theorem Widened.plain {h : Widened m m'} (hp : PlainNames m)
    (hfresh : ∀ a, m.heapNext ≤ a → a < m'.heapNext → '/' ∉ (m'.heap a).name) : PlainNames m' := by
  intro a ha
  rcases Nat.lt_or_ge a m.heapNext with hlt | hge
  · rw [h.grow.name a hlt]
    exact hp a hlt
  · exact hfresh a hge ha

/-- A new dentry under `p`. -/
theorem widened_link {inode : Inode} (hm : Inv m) (hp : p < m.heapNext) (hi : Fresh m inode.ino) :
    Widened m (m.link p n inode) where
  grow := .link hm hp hi
  complete a ha := by
    by_cases h : a = p
    · rw [h, heap_link_parent hp]
    · rw [heap_link_other ha h]
  child a k ha hc := by
    by_cases h : a = p
    · subst h
      rw [heap_link_parent hp]
      by_cases hk : k = n
      · subst hk
        exact ⟨m.heapNext, AList.lookup_insert _⟩
      · exact hc.imp fun c hc => (AList.lookup_insert_ne hk).trans hc
    · rw [heap_link_other ha h]
      exact hc
  origin a k c ha hc := by
    by_cases h : a = p
    · subst h
      rw [heap_link_parent hp] at hc
      by_cases hk : k = n
      · subst hk
        have : m.heapNext = c := Option.some.inj ((AList.lookup_insert _).symm.trans hc)
        exact .inr (Nat.le_of_eq this)
      · exact .inl ((AList.lookup_insert_ne hk).symm.trans hc)
    · rw [heap_link_other ha h] at hc
      exact .inl hc
  fresh a ha ha' := by
    obtain rfl : a = m.heapNext := Nat.le_antisymm (Nat.le_of_lt_succ ha') ha
    rw [heap_link_new n inode hp]
    exact ⟨rfl, rfl⟩

theorem widened_built {nodes : List FTreeNode} (hb : Built p nodes m m') : Widened m m' where
  grow := hb.grow
  complete a ha := (hb.same a ha).2.1
  child a k ha hc := by
    by_cases h : a = p
    · subst h
      exact hc.imp (hb.child k)
    · rw [Dentry.getChild, hb.others a ha h]
      exact hc
  origin a k c ha hc := by
    by_cases h : a = p
    · subst h
      exact (hb.origin k c hc).imp id And.left
    · rw [Dentry.getChild, hb.others a ha h] at hc
      exact .inl hc
  fresh a ha ha' := by
    obtain ⟨hchildren, hcomplete, -⟩ := hb.fresh a ha ha'
    exact ⟨hchildren, hcomplete⟩

/-- A sweep keeps what is complete and not visited, and `a` and the visited keep their names as far as they have
    them marked. -/
theorem Swept.completeHold (hs : Swept p m m') (hm : Inv m) (hb : CompleteHold bucket m)
    (hself : ∀ k, bucket.Yields (m.dirPrefix p) k → ∃ ch, m.KeptChild p k ch)
    (hothers : ∀ d, d ≠ p → m.Visited p d → Attached m d → ((m.heap d).complete = true ∨ (m.heap d).childCount ≠ 0) →
      ∀ k, bucket.Yields (m.dirPrefix d) k → ∃ ch, m.KeptChild d k ch) : CompleteHold bucket m' := by
  intro a ha hc k hy
  have hchild : ∀ b k c, (m'.heap b).getChild k = some c → (m.heap b).getChild k = some c := by
    intro b k c h
    by_cases hv : m.Visited p b
    · exact ((hs.child b hv k c).mp h).1
    · rw [Dentry.getChild, hs.children b hv] at h
      exact h
  have ha' : Attached m a := ha.mono hs.grow.root.symm hchild
  rw [dirPrefix_grow hm hs.grow (ha'.allocated hm)] at hy
  by_cases hv : m.Visited p a
  · have hkept : ∃ ch, m.KeptChild a k ch := by
      by_cases hap : a = p
      · subst hap
        exact hself k hy
      · refine hothers a hap hv ha' ?_ k hy
        rw [hs.complete a hv, Bool.or_eq_true, bne_iff_ne] at hc
        exact hc
    exact hkept.imp fun ch hch => (hs.child a hv k ch).mpr hch
  · rw [hs.others a hv] at hc
    obtain ⟨ch, hch⟩ := hb a ha' hc k hy
    refine ⟨ch, ?_⟩
    rw [Dentry.getChild, hs.children a hv]
    exact hch

/-- A name that the bucket no longer yields is taken from `p`. -/
theorem completeHold_erase (hm : Inv m) (hb : CompleteHold bucket m)
    (hn : Attached m p → (m.heap p).complete = true → ¬ bucket.Yields (m.dirPrefix p) n) :
    CompleteHold bucket (m.set p fun d => { d with children := d.children.erase n }) := by
  intro a ha hc k hy
  have hgrow : Grow m (m.set p fun d => { d with children := d.children.erase n }) := .set Mild.erase
  have hchild : ∀ b k, (b ≠ p ∨ k ≠ n) → ((m.set p fun d => { d with children := d.children.erase n }).heap b).getChild k =
      (m.heap b).getChild k := by
    intro b k h
    by_cases hbp : b = p
    · subst hbp
      rw [heap_set_self]
      exact AList.lookup_erase_ne (h.resolve_left fun h => h rfl)
    · rw [heap_set_ne hbp]
  have hless : ∀ b k c, ((m.set p fun d => { d with children := d.children.erase n }).heap b).getChild k = some c →
      (m.heap b).getChild k = some c := by
    intro b k c h
    by_cases hkeep : b ≠ p ∨ k ≠ n
    · exact (hchild b k hkeep).symm.trans h
    · obtain ⟨hbp, hkn⟩ := not_or.mp hkeep
      obtain rfl := not_ne_iff.mp hbp
      obtain rfl := not_ne_iff.mp hkn
      rw [heap_set_self] at h
      cases (AList.lookup_erase _ _).symm.trans h
  have ha' : Attached m a := ha.mono hgrow.root.symm hless
  rw [dirPrefix_grow hm hgrow (ha'.allocated hm)] at hy
  have hc' : (m.heap a).complete = true := by
    rw [heap_set] at hc
    split at hc
    · rename_i h
      rw [h]
      exact hc
    · exact hc
  rw [hchild a k ?_]
  · exact hb a ha' hc' k hy
  · by_contra hkeep
    obtain ⟨hap, hkn⟩ := not_or.mp hkeep
    obtain rfl := not_ne_iff.mp hap
    obtain rfl := not_ne_iff.mp hkn
    exact hn ha' hc' hy

end LocalMemMeta

namespace MetaImpl
variable {σ α : Type} {view : σ → Bucket} {c : S3Client σ} {opt : MetaOpt} {a : Addr} {ino pino : InodeID} {name : Str}

/-! ### The condition on requests and steps -/

/-- What the kernel promises of a request: names are single components of paths, and a directory in which an entry is
    made is in the tree. -/
def Request.Plain (r : Request) (s : World σ) : Prop :=
  match r with
  | .find _ name | .remove _ name => name ≠ [] ∧ '/' ∉ name
  | .create pino name _ => name ≠ [] ∧ '/' ∉ name ∧ ∃ p, s.cache.lookup pino = some p ∧ Attached s.cache p
  | .load _ | .updateSize _ _ => True

/-- A sweep that walks into a subdirectory that is complete, or is made complete because it has children, finds all
    the names of the bucket there, marked; and what is removed from a complete directory is gone from the bucket. -/
def Careful (view : σ → Bucket) (l : MetaAct) (s : World σ) : Prop :=
  match l with
  | .sweep D => ∀ d, d ≠ D → s.cache.Visited D d → Attached s.cache d →
    ((s.cache.heap d).complete = true ∨ (s.cache.heap d).childCount ≠ 0) →
    ∀ n, (view s.stor).Yields (s.cache.dirPrefix d) n → ∃ ch, s.cache.KeptChild d n ch
  | .erase pino name => ∀ p, s.cache.lookup pino = some p → Attached s.cache p → (s.cache.heap p).complete = true →
    ¬ (view s.stor).Yields (s.cache.dirPrefix p) name
  | _ => True

/-- The states that a new mount reaches by requests that are `allowed`, run one after the other, whose steps all meet
    `guard`, while the clock moves. -/
inductive SerialRun (opt : MetaOpt) (st : Stor σ) (allowed : Request → World σ → Prop) (guard : MetaAct → World σ → Prop) :
    World σ → Prop where
  | new (start : Timespec) (t : σ) (now : Timespec) (garbage : Garbage) :
      SerialRun opt st allowed guard ⟨.new opt start, t, now, garbage⟩
  | request {s : World σ} (h : SerialRun opt st allowed guard s) (fuel : Nat) (r : Request) (hr : allowed r s)
      (hg : (r.prog opt st fuel).Guarded guard s) :
      SerialRun opt st allowed guard (endState ((r.prog opt st fuel).run s))
  | clock {s s' : World σ} (h : SerialRun opt st allowed guard s) (hl : Later s s') : SerialRun opt st allowed guard s'

/-! ### The invariant -/

structure Whole (view : σ → Bucket) (s : World σ) : Prop where
  inv : Inv s.cache
  plain : PlainNames s.cache
  complete : CompleteHold (view s.stor) s.cache

theorem Whole.still {s s' : World σ} (hs : Whole view s) (hm : CacheInv s') (h : Still s.cache s'.cache)
    (hview : view s'.stor = view s.stor) : Whole view s' where
  inv := hm
  plain b hb := by
    rw [h.next] at hb
    rw [h.grow.name b hb]
    exact hs.plain b hb
  complete := by
    rw [hview]
    exact hs.complete.still hs.inv h

/-- The invariant, and a fact about the tree. -/
def WholeAnd (view : σ → Bucket) (K : LocalMemMeta → Prop) (s : World σ) : Prop := Whole view s ∧ K s.cache

/-- Programs keep the invariant as long as their steps are careful. -/
abbrev Safely (view : σ → Bucket) (P : World σ → Prop) (p : MetaM σ α) (Q : α → World σ → Prop) : Prop :=
  Prog.Triple (Careful view) (Whole view) P p Q

variable {K : LocalMemMeta → Prop}

theorem safely_quiet (hK : Stays K) {p : MetaM σ α} (hp : Quiet view p) :
    Safely view (WholeAnd view K) p fun _ => WholeAnd view K :=
  Prog.triple_of_preserves hp (fun _ hs => hs.1.inv)
    (fun _ _ hs hm hr => ⟨hs.1.still hm hr.cache.toStill hr.view, hK _ _ hs.1.inv hr.cache.toStill hs.2⟩) fun _ hs => hs.1

/-- Whatever is known of the tree, when nothing about it is needed. -/
theorem safely_whole {p : MetaM σ α} {Q : α → World σ → Prop} (h : Safely view (WholeAnd view fun _ => True) p Q) :
    Safely view (Whole view) p Q := h.pre fun _ hs => ⟨hs, trivial⟩

theorem safely_idle {p : MetaM σ α} (hp : Quiet view p) : Safely view (Whole view) p fun _ => Whole view :=
  (safely_whole (safely_quiet stays_true hp)).post fun _ _ hs => hs.1

/-- A step that reads a value off the cache. -/
theorem safely_value {p : MetaM σ α} {P : World σ → Prop} {v : LocalMemMeta → α}
    (h : ∀ s, P s → p.run s = .ok (v s.cache) s) : Safely view P p fun r s => r = v s.cache ∧ P s := by
  intro s hs _
  rw [h s hs]
  exact ⟨rfl, hs⟩

/-! ### Lookups -/

theorem plain_link {m : LocalMemMeta} {p : Addr} {inode : Inode} (hm : m.Inv) (hp : p < m.heapNext)
    (hi : Fresh m inode.ino) (hplain : PlainNames m) (hname : '/' ∉ name) : PlainNames (m.link p name inode) := by
  refine (widened_link hm hp hi).plain hplain fun a ha ha' => ?_
  obtain rfl : a = m.heapNext := Nat.le_antisymm (Nat.le_of_lt_succ ha') ha
  rw [heap_link_new name inode hp]
  exact hname

/-- The child that was missing is made. -/
theorem safely_insertBut {l : MetaAct} {f : Timespec → LocalM Addr} (hf : MakesChild pino name f) (hname : '/' ∉ name)
    {p : Addr} : Safely view (fun s => s.cache.Inv ∧ PlainNames s.cache ∧ s.cache.lookup pino = some p ∧
      CompleteHoldBut (view s.stor) p name s.cache) (cache l f) fun _ => Whole view := by
  refine Prog.triple_lift ?_
  rintro s ⟨hm, hplain, hp, hb⟩ -
  obtain ⟨inode, hi, hrun⟩ := hf.run hm hp s.now
  have halloc := (hm.indexed _ _ hp).1
  have hfresh : Fresh s.cache.issue inode.ino := hi ▸ hm.fresh
  have hwide : Widened s.cache.issue (s.cache.issue.link p name inode) := widened_link hm.issue halloc hfresh
  have hm' : (s.cache.issue.link p name inode).Inv := hm.issue.link halloc hfresh
  simp only [onCache, zoom, hrun]
  refine ⟨hm', plain_link hm.issue halloc hfresh hplain hname, ?_⟩
  refine hwide.completeHold hm.issue hm' fun a ha hc k hy => ?_
  have ha' := attached_issue.mp ha
  rw [dirPrefix_grow hm .issue (ha'.allocated hm)] at hy
  refine (hb a ha' hc k hy).imp id ?_
  rintro ⟨rfl, rfl⟩
  refine ⟨s.cache.heapNext, ?_⟩
  rw [heap_link_parent (m := s.cache.issue) halloc]
  exact AList.lookup_insert _

theorem safely_insert {l : MetaAct} {f : Timespec → LocalM Addr} (hf : MakesChild pino name f) (hname : '/' ∉ name) :
    Safely view (Whole view) (cache l f) fun _ => Whole view := by
  intro s hs hg
  rcases hf s.now s.cache hs.inv with ⟨p, inode, hp, hi, hrun⟩ | ⟨e, m', -, hrun, rfl | rfl⟩
  · exact safely_insertBut hf hname s ⟨hs.inv, hs.plain, hp, hs.complete.but⟩ hg
  · rw [cache, Prog.run_lift]
    simp only [onCache, zoom, hrun]
    exact hs
  · rw [cache, Prog.run_lift]
    simp only [onCache, zoom, hrun]
    exact hs.still hs.inv.issue still_issue rfl

/-- A lookup that found nothing left the tree alone. -/
def Looked (view : σ → Bucket) (K : LocalMemMeta → Prop) (r : Option Addr) (s : World σ) : Prop :=
  Whole view s ∧ (r = none → K s.cache)

theorem safely_addVirtualDir {parent : Addr} (hname : '/' ∉ name) :
    Safely view (Whole view) (addVirtualDir opt parent name) fun _ => Whole view :=
  (safely_idle quiet_readDentry).bind fun _ => (safely_insert makes_new hname).bind fun _ =>
    (safely_idle quiet_incTtl).bind fun _ => Prog.triple_pure fun _ hs => hs

section
variable (hc : c.Serves view)
include hc

theorem safely_findRemote (hK : Stays K) (hname : '/' ∉ name) :
    Safely view (WholeAnd view K) (findRemote opt (s3Stor c) pino name) (Looked view K) := by
  refine (safely_quiet hK quiet_getDentry).bind fun parent => ?_
  cases parent with
  | none => exact Prog.triple_fail fun _ hs => hs.1
  | some parent =>
    refine (safely_quiet hK (quiet_getRemoteObj (reads_serves hc))).bind ?_
    rintro ⟨obj, exist, isDir⟩
    cases exist with
    | true =>
      have hmake : Safely view (Whole view) (do
          let d ← cache (.insert pino name) fun now => createDentryFromObj now pino name obj isDir
          incTtl opt d
          pure (some d)) (Looked view K) :=
        (safely_insert makes_fromObj hname).bind fun _ => (safely_idle quiet_incTtl).bind fun _ =>
          Prog.triple_pure fun _ hs => ⟨hs, fun h => by cases h⟩
      exact hmake.pre fun _ hs => hs.1
    | false =>
      refine (safely_quiet hK quiet_pathWithSlash).bind fun pre =>
        (safely_quiet hK (quiet_isRemoteDirExist (reads_serves hc))).bind fun exist => ?_
      cases exist with
      | true =>
        have hmake : Safely view (Whole view) (some <$> addVirtualDir opt parent name) (Looked view K) :=
          ((safely_addVirtualDir hname).post fun _ _ hs => ⟨hs, fun h => by cases h⟩).map
        exact hmake.pre fun _ hs => hs.1
      | false => exact Prog.triple_pure fun _ hs => ⟨hs.1, fun _ => hs.2⟩

theorem safely_findDentry (hK : Stays K) (hname : '/' ∉ name) {onlyLocal : Bool} :
    Safely view (WholeAnd view K) (findDentry opt (s3Stor c) pino name onlyLocal) (Looked view K) := by
  have hfind : Safely view (WholeAnd view K) (cache (.find pino name) fun _ => LocalMemMeta.findDentry pino name)
      fun _ => WholeAnd view K := by
    refine Prog.triple_lift fun s hs _ => ?_
    have hcalm : Calm (LocalMemMeta.findDentry pino name) := calm_findDentry
    have := hcalm s.cache hs.1.inv trivial
    simp only [onCache, zoom]
    cases hf : LocalMemMeta.findDentry pino name s.cache <;> rw [hf] at this
    · exact ⟨hs.1.still this.1 this.2.1.toStill rfl, hK _ _ hs.1.inv this.2.1.toStill hs.2⟩
    · exact hs.1.still this.1 this.2.toStill rfl
  refine hfind.bind fun d => ?_
  cases d with
  | none =>
    cases onlyLocal with
    | true => exact Prog.triple_pure fun _ hs => ⟨hs.1, fun _ => hs.2⟩
    | false => exact safely_findRemote hc hK hname
  | some a =>
    refine (safely_quiet hK (quiet_look rfl)).bind fun expired => ?_
    cases expired with
    | true =>
      refine ((safely_quiet hK (quiet_revalidate (reads_serves hc))).returns returns_revalidate).post ?_
      rintro _ s ⟨rfl, hs⟩
      exact ⟨hs.1, fun h => by cases h⟩
    | false => exact Prog.triple_pure fun _ hs => ⟨hs.1, fun h => by cases h⟩

end

/-! ### A new entry -/

/-- `a` is the directory `ino`, and in the tree. -/
def DirInTree (ino : InodeID) (a : Addr) (m : LocalMemMeta) : Prop := m.lookup ino = some a ∧ m.Attached a

theorem stays_dirInTree : Stays (DirInTree ino a) := fun _ _ _ h hk =>
  ⟨h.grow.index _ _ hk.1, h.attached.mpr hk.2⟩

/-- What follows the name in the key of an entry. -/
def keyEnd (mode : Mode) : Str := if mode &&& S_IFDIR != 0 then slash else []

theorem run_newKey {m : LocalMemMeta} {t : σ} {now : Timespec} {garbage : Garbage} {mode : Mode} (hm : m.Inv)
    (ha : a < m.heapNext) : (newKey a name mode : MetaM σ _).run ⟨m, t, now, garbage⟩ =
      .ok (m.dirPrefix a ++ (name ++ keyEnd mode)) ⟨m, t, now, garbage⟩ := by
  have hkey : (fileKey a (m.heap a).isRoot name : MetaM σ _).run ⟨m, t, now, garbage⟩ =
      .ok (m.dirPrefix a ++ name) ⟨m, t, now, garbage⟩ := by
    obtain ⟨path, hpath⟩ := fullPath_some hm ha
    rw [fileKey, dirPrefix]
    by_cases hr : (m.heap a).isRoot = true
    · rw [if_pos hr, if_pos hr]
      rfl
    · have hrun : (fullPath a : MetaM σ _).run ⟨m, t, now, garbage⟩ = .ok path ⟨m, t, now, garbage⟩ :=
        run_cache_ok (run_getFullPath hpath)
      rw [if_neg hr, if_neg hr, Prog.run_bind_ok hrun, hpath]
      rfl
  rw [newKey, Prog.run_bind_ok run_readDentry, Prog.run_bind_ok hkey, keyEnd]
  split <;> simp

/-- The object of the new entry is put: only the parent then lacks a name. -/
theorem completeHoldBut_put {m : LocalMemMeta} {bucket : Bucket} {p : Addr} {mode : Mode} {body : List Byte} (hm : m.Inv)
    (hplain : PlainNames m) (hb : CompleteHold bucket m) (hp : m.Attached p) (hname : '/' ∉ name) :
    CompleteHoldBut (bucket.put (m.dirPrefix p ++ (name ++ keyEnd mode)) body) p name m := by
  intro a ha hc k hy
  obtain ⟨hk, hs, hy⟩ := hy
  have hend : keyEnd mode = [] ∨ keyEnd mode = slash := by
    unfold keyEnd
    split
    · exact .inr rfl
    · exact .inl rfl
  have hput : ∀ rest, WordEnd '/' rest → (bucket.put (m.dirPrefix p ++ (name ++ keyEnd mode)) body).Holds
      (m.dirPrefix a ++ (k ++ rest)) → (a = p ∧ k = name) ∨ (∃ ch, (m.heap a).getChild k = some ch) ∨
        bucket.Holds (m.dirPrefix a ++ (k ++ rest)) := by
    intro rest hrest hh
    by_cases hkey : m.dirPrefix a ++ (k ++ rest) = m.dirPrefix p ++ (name ++ keyEnd mode)
    · exact (next_child hm hplain ha hp hname hs hk hrest hend hkey).imp id .inl
    · rw [Bucket.Holds, Bucket.put, Function.update_of_ne hkey] at hh
      exact .inr (.inr hh)
  rcases hy with hy | ⟨rest, hy⟩
  · have := hput [] wordEnd_nil (by rwa [List.append_nil])
    rw [List.append_nil] at this
    rcases this with h | h | h
    · exact .inr h
    · exact .inl h
    · exact .inl (hb a ha hc k ⟨hk, hs, .inl h⟩)
  · have hassoc : m.dirPrefix a ++ k ++ slash ++ rest = m.dirPrefix a ++ (k ++ ('/' :: rest)) := by simp [slash]
    rw [hassoc] at hy
    rcases hput _ wordEnd_cons hy with h | h | h
    · exact .inr h
    · exact .inl h
    · rw [← hassoc] at h
      exact .inl (hb a ha hc k ⟨hk, hs, .inr ⟨rest, h⟩⟩)

theorem putFile_served (hc : c.Serves view) {key : Str} (hkey : key ≠ []) (req : PutFileReq) (h : req.objKey = key) (t : σ) :
    ∃ body t', (s3Stor c).putFile req t = .ok () t' ∧ view t' = (view t).put key body := by
  subst h
  obtain ⟨t', hr, hv⟩ := hc.put t req.objKey ((req.buf.getD []).take req.size) hkey
  refine ⟨_, t', ?_, hv⟩
  simp only [s3Stor, orServerError, hr]

theorem safely_createDentry (hc : c.Serves view) {mode : Mode} (hne : name ≠ []) (hname : '/' ∉ name) :
    Safely view (WholeAnd view (DirInTree pino a)) (createDentry opt (s3Stor c) pino name mode) fun _ => Whole view := by
  refine (safely_findDentry hc stays_dirInTree hname).bind fun d => ?_
  cases d with
  | some d => exact Prog.triple_pure fun _ hs => hs.1
  | none =>
    have hdir : Safely view (WholeAnd view (DirInTree pino a)) (getDentry pino) fun r s =>
        r = some a ∧ WholeAnd view (DirInTree pino a) s :=
      (safely_value (v := fun m => m.lookup pino) fun _ _ => rfl).post fun _ _ hs => ⟨hs.1.trans hs.2.2.1, hs.2⟩
    refine Prog.Triple.pre ?_ fun s hs => (⟨hs.1, hs.2 rfl⟩ : WholeAnd view (DirInTree pino a) s)
    refine hdir.bind fun r => Prog.Triple.of_fact ?_
    rintro rfl
    have hkey : Safely view (WholeAnd view (DirInTree pino a)) (newKey a name mode) fun key s =>
        key = s.cache.dirPrefix a ++ (name ++ keyEnd mode) ∧ WholeAnd view (DirInTree pino a) s :=
      safely_value (v := fun m => m.dirPrefix a ++ (name ++ keyEnd mode)) fun s hs =>
        run_newKey hs.1.inv (hs.1.inv.indexed _ _ hs.2.1).1
    refine hkey.bind fun key => ?_
    have hstays : Stays fun m => key = m.dirPrefix a ++ (name ++ keyEnd mode) ∧ DirInTree pino a m := by
      intro m m' hm h hk
      rw [dirPrefix_grow hm h.grow (hm.indexed _ _ hk.2.1).1]
      exact ⟨hk.1, stays_dirInTree m m' hm h hk.2⟩
    refine Prog.Triple.pre ((safely_quiet hstays quiet_readDentry).bind fun p => ?_) fun s hs => ⟨hs.2.1, hs.1, hs.2.2⟩
    refine Prog.Triple.bind ?_ fun _ => safely_insertBut (p := a) makes_new hname
    refine Prog.triple_lift ?_
    rintro s ⟨hs, rfl, hdir⟩ -
    have hkey : s.cache.dirPrefix a ++ (name ++ keyEnd mode) ≠ [] := by simp [hne]
    obtain ⟨body, t', hr, hv⟩ := putFile_served hc hkey
      { objKey := s.cache.dirPrefix a ++ (name ++ keyEnd mode), buf := none, size := 0
        metaData := [("mode".toList, charOf mode.toNat), ("uid".toList, charOf p.inode.uid),
          ("gid".toList, charOf p.inode.gid)] } rfl s.stor
    rw [zoom_ok hr]
    refine ⟨hs.inv, hs.plain, hdir.1, ?_⟩
    show CompleteHoldBut (view t') a name s.cache
    rw [hv]
    exact completeHoldBut_put hs.inv hs.plain hs.complete hdir.2 hname

/-! ### A removal -/

theorem Bucket.yields_delete {b : Bucket} {key pre n : Str} (h : (b.delete key).Yields pre n) : b.Yields pre n := by
  have hholds : ∀ k, (b.delete key).Holds k → b.Holds k := by
    intro k hk
    by_cases he : k = key
    · rw [Bucket.Holds, Bucket.delete, he, Function.update_self] at hk
      cases hk
    · rwa [Bucket.Holds, Bucket.delete, Function.update_of_ne he] at hk
  exact ⟨h.1, h.2.1, h.2.2.imp (hholds _) (Exists.imp fun _ => hholds _)⟩

theorem safely_delete (hc : c.Serves view) {key : Str} :
    Safely view (Whole view) (call (.delete key) ((s3Stor c).deleteFile { objKey := key })) fun _ => Whole view := by
  refine Prog.triple_lift fun s hs _ => ?_
  obtain ⟨t', hr, hv⟩ := hc.delete s.stor key
  have hrun : (s3Stor c).deleteFile { objKey := key } s.stor = .ok () t' := by simp only [s3Stor, orServerError, hr]
  rw [zoom_ok hrun]
  refine ⟨hs.inv, hs.plain, ?_⟩
  show CompleteHold (view t') s.cache
  rw [hv]
  exact fun a ha hcomplete k hy => hs.complete a ha hcomplete k (Bucket.yields_delete hy)

theorem safely_erase : Safely view (Whole view) (cache (.erase pino name) fun _ => LocalMemMeta.removeDentry pino name)
    fun _ => Whole view := by
  refine Prog.triple_lift fun s hs hg => ?_
  simp only [onCache, zoom]
  cases hp : s.cache.lookup pino with
  | none =>
    rw [run_removeDentry_none hp]
    exact hs
  | some p =>
    rw [run_removeDentry hp]
    refine ⟨hs.inv.set Mild.erase, fun b hb => ?_, completeHold_erase hs.inv hs.complete (hg p hp)⟩
    have hgrow : Grow s.cache (s.cache.set p fun d => { d with children := d.children.erase name }) := .set Mild.erase
    rw [hgrow.name b hb]
    exact hs.plain b hb

theorem safely_removeDentry (hc : c.Serves view) (hname : '/' ∉ name) :
    Safely view (Whole view) (removeDentry opt (s3Stor c) pino name) fun _ => Whole view := by
  refine (safely_whole (safely_findDentry hc stays_true hname)).bind fun d => ?_
  refine Prog.Triple.pre ?_ fun _ hs => hs.1
  cases d with
  | none => exact Prog.triple_pure fun _ hs => hs
  | some a =>
    refine (safely_idle quiet_fullPath).bind fun path => (safely_idle quiet_readDentry).bind fun d => ?_
    split
    · split
      · exact Prog.triple_fail fun _ hs => hs
      · exact (safely_delete hc).bind fun _ => safely_erase
    · exact (safely_delete hc).bind fun _ => safely_erase

/-! ### A listing -/

/-- In the middle of a refresh of `a`: what these pages list is marked. -/
structure MarkingPages (view : σ → Bucket) (b : Bucket) (a : Addr) (ino : InodeID) (pre : Str) (contents : List S3Object)
    (commonPrefixes : List Str) (s : World σ) : Prop where
  whole : Whole view s
  index : s.cache.lookup ino = some a
  prefixed : s.cache.dirPrefix a = pre
  view : view s.stor = b
  marked : ∀ n, n ≠ [] → ((∃ o ∈ contents, o.key = pre ++ n) ∨ pre ++ n ++ slash ∈ commonPrefixes) →
    ∃ ch, s.cache.KeptChild a n ch

variable {b : Bucket} {pre : Str} {contents contents' : List S3Object} {commonPrefixes commonPrefixes' : List Str}

theorem Whole.built {s : World σ} {m' : LocalMemMeta} {nodes : List FTreeNode} (hs : Whole view s)
    (hb : Built a nodes s.cache m') (hplain : ∀ node ∈ nodes, '/' ∉ node.name) : Whole view { s with cache := m' } where
  inv := hb.inv
  plain := (widened_built hb).plain hs.plain fun x hx hx' => by
    obtain ⟨-, -, -, -, node, hnode, hname, -⟩ := hb.fresh x hx hx'
    rw [← hname]
    exact hplain node hnode
  complete := (widened_built hb).completeHold hs.inv hb.inv fun x hx hc k hy => .inl (hs.complete x hx hc k hy)

theorem MarkingPages.build {s : World σ} {m' : LocalMemMeta} {nodes : List FTreeNode}
    (hs : MarkingPages view b a ino pre contents commonPrefixes s) (hb : Built a nodes s.cache m')
    (hn : NodesFor pre contents' commonPrefixes' nodes) (hplain : ∀ node ∈ nodes, '/' ∉ node.name) :
    MarkingPages view b a ino pre (contents ++ contents') (commonPrefixes ++ commonPrefixes') { s with cache := m' } where
  whole := hs.whole.built hb hplain
  index := hb.grow.index _ _ hs.index
  prefixed := (dirPrefix_grow hs.whole.inv hb.grow hb.alloc).trans hs.prefixed
  view := hs.view
  marked n hne hlist := by
    have hkeep : (∃ ch, s.cache.KeptChild a n ch) → ∃ ch, m'.KeptChild a n ch := by
      rintro ⟨ch, hch, hsync⟩
      exact ⟨ch, hb.child n ch hch, hb.mark ch (hs.whole.inv.child a n ch hb.alloc hch).2.1 hsync⟩
    have hnew : (∃ node ∈ nodes, node.name = n) → ∃ ch, m'.KeptChild a n ch := by
      rintro ⟨node, hnode, rfl⟩
      exact hb.listed node hnode
    rcases hlist with ⟨o, ho, hk⟩ | hp
    · rcases List.mem_append.mp ho with ho | ho
      · exact hkeep (hs.marked n hne (.inl ⟨o, ho, hk⟩))
      · obtain ⟨node, hnode, he⟩ := hn.files o ho
        exact hnew ⟨node, hnode, List.append_cancel_left (he.symm.trans hk)⟩
    · rcases List.mem_append.mp hp with hp | hp
      · exact hkeep (hs.marked n hne (.inr hp))
      · exact hnew (hn.dirs n hne hp)

section
variable (hc : c.Serves view)
include hc

theorem safely_refreshLoop (fuel : Nat) (marker : Str) (contents : List S3Object) (commonPrefixes : List Str)
    (hrest : Remaining c view b pre marker contents commonPrefixes) :
    Safely view (MarkingPages view b a ino pre contents commonPrefixes) (refreshLoop (s3Stor c) ino pre fuel marker)
      fun _ s => ∃ contents' commonPrefixes', b.Listing pre contents' commonPrefixes' ∧
        MarkingPages view b a ino pre contents' commonPrefixes' s := by
  induction fuel generalizing marker contents commonPrefixes with
  | zero => exact Prog.triple_fail fun _ hs => hs.whole
  | succ fuel ih =>
    have hlist : Safely view (MarkingPages view b a ino pre contents commonPrefixes)
        (call (.list pre marker) ((s3Stor c).listObjects { delimiter := slash, pre, max := 1000, marker }))
        fun resp s => (∃ r t t', view t = b ∧ view t' = b ∧ c.listObjects (pageRequest pre marker) t = .ok r t' ∧
          Under pre r ∧ resp = pageResp (c.garbage t) r) ∧ MarkingPages view b a ino pre contents commonPrefixes s := by
      refine Prog.triple_lift fun s hs _ => ?_
      obtain ⟨r, t', hr, hv, hunder⟩ := page_served hc s.stor pre marker
      rw [zoom_ok (run_listObjects hr)]
      have hwhole : Whole view { s with stor := t' } := hs.whole.still hs.whole.inv (.refl _) hv
      exact ⟨⟨r, _, t', hs.view, hv.trans hs.view, hr, hunder, rfl⟩, hwhole, hs.index, hs.prefixed, hv.trans hs.view, hs.marked⟩
    refine hlist.bind fun resp => Prog.Triple.of_fact ?_
    rintro ⟨r, t, t₁, hv, hv₁, hr, hunder, rfl⟩
    obtain ⟨nodes, hft, hn⟩ := nodesFor_page hunder (c.garbage t)
    rw [hft]
    have hbuild : Safely view (MarkingPages view b a ino pre contents commonPrefixes)
        (cache (.build ino (nodes.map FTreeNode.name)) fun now => buildDentries now ino nodes)
        fun _ => MarkingPages view b a ino pre (contents ++ r.contents) (commonPrefixes ++ r.commonPrefixes) := by
      refine Prog.triple_lift fun s hs _ => ?_
      obtain ⟨m', hrun, hb⟩ := run_buildDentries s.now hs.whole.inv hs.index hn.flat
      simp only [onCache, zoom, hrun]
      exact hs.build hb hn (plain_nodes hn hunder)
    refine hbuild.bind fun _ => ?_
    cases ht : r.isTruncated with
    | true =>
      rw [if_pos (show (pageResp (c.garbage t) r).isTrunc = true from ht)]
      exact ih _ _ _ (hrest.more hv hv₁ hr ht)
    | false =>
      have hlast : ¬ (pageResp (c.garbage t) r).isTrunc = true := by
        rw [show (pageResp (c.garbage t) r).isTrunc = false from ht]
        exact Bool.false_ne_true
      rw [if_neg hlast]
      exact Prog.triple_pure fun s hs => ⟨_, _, hrest.last hv hr ht, hs⟩

theorem safely_refresh (fuel : Nat) : Safely view (MarkingPages view b a ino pre [] []) (refreshSubDentries (s3Stor c) fuel a)
    fun _ => Whole view := by
  have hprefix : Safely view (MarkingPages view b a ino pre [] []) (pathWithSlash a) fun r s =>
      r = pre ∧ MarkingPages view b a ino pre [] [] s :=
    (safely_value (v := fun m => m.dirPrefix a) fun s hs =>
      run_pathWithSlash hs.whole.inv (hs.whole.inv.indexed _ _ hs.index).1).post fun _ _ hs => ⟨hs.1.trans hs.2.prefixed, hs.2⟩
  refine hprefix.bind fun r => Prog.Triple.of_fact ?_
  rintro rfl
  have hread : Safely view (MarkingPages view b a ino r [] []) (readDentry a) fun d s =>
      d.inode.ino = ino ∧ MarkingPages view b a ino r [] [] s :=
    (safely_value (v := fun m => m.heap a) fun _ _ => run_readDentry).post fun d s hs => by
      rw [hs.1]
      exact ⟨(hs.2.whole.inv.indexed _ _ hs.2.index).2, hs.2⟩
  refine hread.bind fun d => Prog.Triple.of_fact fun hino => ?_
  rw [hino]
  refine (safely_refreshLoop hc fuel [] [] [] (remaining_start hc)).bind fun _ => ?_
  refine Prog.triple_lift ?_
  rintro s ⟨contents, commonPrefixes, hl, hs⟩ hg
  obtain ⟨m', hrun, hswept⟩ := run_clearUnsyncDentry s.now hs.whole.inv (hs.whole.inv.indexed _ _ hs.index).1
  simp only [onCache, zoom, hrun]
  refine ⟨hswept.inv, fun x hx => ?_, ?_⟩
  · rw [hswept.next] at hx
    rw [hswept.grow.name x hx]
    exact hs.whole.plain x hx
  · show CompleteHold (view s.stor) m'
    refine hswept.completeHold hs.whole.inv hs.whole.complete (fun k hy => ?_) fun d hd hv ha hcomplete => hg d hd hv ha hcomplete
    rw [hs.view, hs.prefixed] at hy
    obtain ⟨hne, hlist⟩ := hl.yields_iff.mp hy
    exact hs.marked k hne (hlist.imp id And.right)

theorem safely_loadSubDentries (fuel : Nat) : Safely view (Whole view) (loadSubDentries (s3Stor c) fuel ino)
    fun _ => Whole view := by
  refine (safely_value (v := fun m => m.lookup ino) fun _ _ => rfl).bind fun r => ?_
  cases r with
  | none => exact Prog.triple_fail fun _ hs => hs.2
  | some a =>
    have hpre : ∀ s, some a = s.cache.lookup ino ∧ Whole view s → WholeAnd view (fun m => m.lookup ino = some a) s :=
      fun _ hs => ⟨hs.2, hs.1.symm⟩
    refine Prog.Triple.pre ((safely_quiet stays_lookup (quiet_look rfl)).bind fun stale => ?_) hpre
    have hlist : Safely view (Whole view) (listChildren a) fun _ => Whole view := safely_idle quiet_listChildren
    cases stale with
    | true =>
      refine Prog.Triple.bind (M := fun _ => Whole view) (fun s hs hg => ?_) fun _ => hlist
      exact safely_refresh hc fuel s ⟨hs.1, hs.2, rfl, rfl, fun n _ h => by simp at h⟩ hg
    | false => exact hlist.pre fun _ hs => hs.1

/-! ### Whole sessions -/

theorem safely_request {r : Request} {fuel : Nat} {s : World σ} (hr : r.Plain s) (hs : Whole view s)
    (hg : (r.prog opt (s3Stor c) fuel).Guarded (Careful view) s) :
    Whole view (endState ((r.prog opt (s3Stor c) fuel).run s)) := by
  have h : Safely view (· = s) (r.prog opt (s3Stor c) fuel) fun _ => Whole view := by
    cases r with
    | find pino name =>
      have hfind : Safely view (Whole view) (findDentry opt (s3Stor c) pino name false) fun _ => Whole view :=
        (safely_whole (safely_findDentry hc stays_true hr.2)).post fun _ _ h => h.1
      refine hfind.drop.pre ?_
      rintro _ rfl
      exact hs
    | create pino name mode =>
      obtain ⟨hne, hname, p, hp, ha⟩ := hr
      refine (safely_createDentry hc (a := p) hne hname).drop.pre ?_
      rintro _ rfl
      exact ⟨hs, hp, ha⟩
    | remove pino name =>
      refine (safely_removeDentry hc hr.2).pre ?_
      rintro _ rfl
      exact hs
    | load ino =>
      refine (safely_loadSubDentries hc fuel).drop.pre ?_
      rintro _ rfl
      exact hs
    | updateSize ino size =>
      refine (safely_idle quiet_updateInode).pre ?_
      rintro _ rfl
      exact hs
  have := h s rfl hg
  cases hrun : (r.prog opt (s3Stor c) fuel).run s <;> rw [hrun] at this <;> exact this

theorem SerialRun.whole {s : World σ} (h : SerialRun opt (s3Stor c) Request.Plain (Careful view) s) : Whole view s := by
  induction h with
  | new start t now garbage =>
    have hinv : (LocalMemMeta.new opt start).Inv := .new opt start
    refine ⟨hinv, fun a ha => ?_, fun a ha hcomplete => ?_⟩
    · obtain rfl : a = 0 := Nat.lt_one_iff.mp ha
      exact List.not_mem_nil
    · obtain rfl : a = 0 := Nat.lt_one_iff.mp (ha.allocated hinv)
      cases hcomplete
  | request _ fuel r hr hg ih => exact safely_request hc hr ih hg
  | clock _ hl ih =>
    refine ⟨hl.cache ▸ ih.inv, hl.cache ▸ ih.plain, ?_⟩
    rw [hl.cache, hl.stor]
    exact ih.complete

/-- As long as every step is careful, a complete directory in the tree has all the names of the bucket: what is
    answered from the cache misses nothing. -/
theorem complete_dirs_hold {s : World σ} (h : SerialRun opt (s3Stor c) Request.Plain (Careful view) s) {a : Addr}
    (ha : s.cache.Attached a) (hcomplete : (s.cache.heap a).complete = true) {n : Str}
    (hy : (view s.stor).Yields (s.cache.dirPrefix a) n) : ∃ ch, (s.cache.heap a).getChild n = some ch :=
  (h.whole hc).complete a ha hcomplete n hy

end

/-! ### Two sessions -/

/-- A step that sweeps nothing but one directory above empty ones, and removes nothing. -/
def flatSweep (l : MetaAct) (s : World σ) : Bool :=
  match l with
  | .sweep D => (List.range s.cache.heapNext).all fun d => d == D || !(s.cache.heap d).complete && (s.cache.heap d).childCount == 0
  | .erase .. => false
  | _ => true

theorem careful_of_flatSweep (l : MetaAct) (s : World σ) (hs : CacheInv s) (h : flatSweep l s = true) : Careful view l s := by
  cases l with
  | sweep D =>
    intro d hd _ ha hcomplete
    have hflat := List.all_eq_true.mp h d (List.mem_range.mpr (ha.allocated hs))
    rw [Bool.or_eq_true, beq_iff_eq, Bool.and_eq_true, Bool.not_eq_true', beq_iff_eq] at hflat
    obtain ⟨hc, hz⟩ := hflat.resolve_left hd
    rcases hcomplete with hcomplete | hcount
    · rw [hc] at hcomplete
      cases hcomplete
    · exact absurd hz hcount
  | erase => cases h
  | _ => trivial

/-- The world after a request. -/
def served (s : World Log) (r : Request) : World Log := endState ((r.prog ⟨0, 0, 60⟩ (s3Stor Log.client) 1).run s)

theorem SerialRun.attached_root {st : Stor σ} {allowed : Request → World σ → Prop} {guard : MetaAct → World σ → Prop}
    {s : World σ} (h : SerialRun opt st allowed guard s) : s.cache.Inv ∧ s.cache.Attached 0 := by
  have hinv : s.cache.Inv := by
    induction h with
    | new start => exact .new opt start
    | request _ fuel r _ _ ih =>
      have htame : Tame (r.prog opt st fuel) := tame_request r
      exact (htame.run ih).1
    | clock _ hl ih => exact hl.cache ▸ ih
  have hroot : s.cache.Attached s.cache.rootDentry := .root
  rw [hinv.root] at hroot
  exact ⟨hinv, hroot⟩

theorem complete_dirs_hold_oneKey : ∃ s, SerialRun ⟨0, 0, 60⟩ (s3Stor Log.client) Request.Plain (Careful Log.bucket) s ∧
    (s.cache.heap 0).complete = true ∧ ∃ ch, (s.cache.heap 0).getChild ['d'] = some ch := by
  have hstart : SerialRun ⟨0, 0, 60⟩ (s3Stor Log.client) Request.Plain (Careful Log.bucket) (newWorld oneKey) := .new ..
  have hg : ((Request.load 1).prog ⟨0, 0, 60⟩ (s3Stor Log.client) 1).Guarded (Careful Log.bucket) (newWorld oneKey) :=
    Prog.guarded_of_checks (tame_request (.load 1)) careful_of_flatSweep hstart.attached_root.1 (by decide +kernel)
  have hs : SerialRun ⟨0, 0, 60⟩ (s3Stor Log.client) Request.Plain (Careful Log.bucket) (served (newWorld oneKey) (.load 1)) :=
    hstart.request 1 (.load 1) trivial hg
  have hcomplete : ((served (newWorld oneKey) (.load 1)).cache.heap 0).complete = true := by decide +kernel
  have hkey : ((served (newWorld oneKey) (.load 1)).stor.bucket ((served (newWorld oneKey) (.load 1)).cache.dirPrefix 0 ++
      ['d'] ++ slash ++ ['x'])).isSome = true := by decide +kernel
  exact ⟨_, hs, hcomplete, complete_dirs_hold Log.client_serves hs hs.attached_root.2 hcomplete
    ⟨by decide, by decide, .inr ⟨['x'], hkey⟩⟩⟩

/-- A bucket with the keys `a/b` and `a/d/x`. -/
def twoKeys : Log := [(.putFile ['a', '/', 'b'] [], true), (.putFile ['a', '/', 'd', '/', 'x'] [], true)]

/-- Lookups of `a` and of `d` in it. -/
def bothFound : World Log := served (served (newWorld twoKeys) (.find ROOT_INODE_ID ['a'])) (.find 2 ['d'])

/-- `d` was listed, and its file removed. -/
def emptied : World Log := served (served bothFound (.load 3)) (.remove 3 ['x'])

/-- A listing of the root: its sweep takes `a`, which was not listed, for complete. -/
def sweptIntoDir : World Log := served emptied (.load ROOT_INODE_ID)

/-- No sweep on the way has a child to remove. -/
theorem complete_dir_misses_key : SerialRun ⟨0, 0, 60⟩ (s3Stor Log.client) Request.Plain (fun _ _ => True) sweptIntoDir ∧
    Survives ((Request.load 3).prog ⟨0, 0, 60⟩ (s3Stor Log.client) 1) bothFound ∧
    Survives ((Request.load ROOT_INODE_ID).prog ⟨0, 0, 60⟩ (s3Stor Log.client) 1) emptied ∧
    sweptIntoDir.cache.Attached 1 ∧ (sweptIntoDir.cache.heap 1).isDir = true ∧
    (sweptIntoDir.cache.heap 1).complete = true ∧ (sweptIntoDir.cache.heap 1).isExpired sweptIntoDir.now = false ∧
    sweptIntoDir.stor.bucket.Yields (sweptIntoDir.cache.dirPrefix 1) ['b'] ∧
    (sweptIntoDir.cache.heap 1).getChild ['b'] = none := by
  have hs : SerialRun ⟨0, 0, 60⟩ (s3Stor Log.client) Request.Plain (fun _ _ => True) sweptIntoDir := by
    refine .request (.request (.request (.request (.request (.new ..) 1 (.find ROOT_INODE_ID ['a']) ?_ Prog.guarded_trivial) 1
      (.find 2 ['d']) ?_ Prog.guarded_trivial) 1 (.load 3) trivial Prog.guarded_trivial) 1 (.remove 3 ['x']) ?_
      Prog.guarded_trivial) 1 (.load ROOT_INODE_ID) trivial Prog.guarded_trivial
    · exact ⟨by decide, by decide⟩
    · exact ⟨by decide, by decide⟩
    · exact ⟨by decide, by decide⟩
  have hchild : (sweptIntoDir.cache.heap 0).getChild ['a'] = some 1 := by decide +kernel
  have hkey : (sweptIntoDir.stor.bucket (sweptIntoDir.cache.dirPrefix 1 ++ ['b'])).isSome = true := by decide +kernel
  exact ⟨hs, survives_of_within 3 (by decide +kernel), survives_of_within 3 (by decide +kernel), hs.attached_root.2.child hchild,
    by decide +kernel, by decide +kernel, by decide +kernel, ⟨by decide, by decide, .inl hkey⟩, by decide +kernel⟩

end MetaImpl

end Catfs
