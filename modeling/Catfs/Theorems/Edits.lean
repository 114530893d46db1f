import Catfs.Lib.Behaves
import Catfs.Theorems.Effects
import Catfs.Theorems.Refresh

/-! # The changes of a request that runs alone

`Changes` says what a step may do to the cache whoever else takes steps. A request that runs alone makes only the edits
that `Request.Edits` names, with values read off the state it began in and the answers of the store
(`request_edits`). -/

namespace Catfs

open Lib MetaM LocalMemMeta
open EStateM (Result)
open Relation (ReflTransGen)

namespace LocalMemMeta

inductive Edit where
  | alter (a : Addr) (f : Dentry → Dentry)
  | link (p : Addr) (name : Str) (inode : Inode)
  | erase (p : Addr) (name : Str)
  | sweep (p : Addr)

variable {m m' m'' : LocalMemMeta} {a b c : Addr} {n : Str} {e : Edit} {E E' : Edit → LocalMemMeta → Prop}

/-- The edit leads from `m` to `m'`. What is altered are the attributes and flags of a dentry. -/
def Edit.Leads (e : Edit) (m m' : LocalMemMeta) : Prop :=
  match e with
  | .alter a f => a < m.heapNext ∧ Mild f ∧ (∀ d, (f d).children = d.children) ∧ m' = m.set a f
  | .link p name inode => p < m.heapNext ∧ inode.ino = m.nextInodeId ∧ m' = m.issue.link p name inode
  | .erase p name => m' = m.set p fun d => { d with children := d.children.erase name }
  | .sweep p => p < m.heapNext ∧ Swept p m m'

theorem Edit.Leads.keeps (hm : Inv m) (h : e.Leads m m') : Inv m' ∧ Grow m m' := by
  cases e with
  | alter a f =>
    obtain ⟨-, hf, -, rfl⟩ := h
    exact ⟨hm.set hf, .set hf⟩
  | link p name inode =>
    obtain ⟨hp, hi, rfl⟩ := h
    have hfresh : Fresh m.issue inode.ino := hi ▸ hm.fresh
    exact ⟨hm.issue.link hp hfresh, Grow.issue.trans (.link hm.issue hp hfresh)⟩
  | erase p name =>
    obtain rfl := h
    exact ⟨hm.set Mild.erase, .set Mild.erase⟩
  | sweep p => exact ⟨h.2.inv, h.2.grow⟩

/-- A child was one before, or is new. -/
theorem Edit.Leads.origin (h : e.Leads m m') (hb : b < m'.heapNext) (hc : (m'.heap b).getChild n = some c) :
    (b < m.heapNext ∧ (m.heap b).getChild n = some c) ∨ m.heapNext ≤ c := by
  cases e with
  | alter a f =>
    obtain ⟨-, hf, -, rfl⟩ := h
    refine .inl ⟨hb, ?_⟩
    rw [heap_set] at hc
    split at hc
    · rename_i hba
      exact hba ▸ hf.child _ _ _ hc
    · exact hc
  | link p name inode =>
    obtain ⟨hp, -, rfl⟩ := h
    rcases Nat.lt_succ_iff_lt_or_eq.mp hb with hold | rfl
    · by_cases hbp : b = p
      · subst hbp
        rw [heap_link_parent (m := m.issue) hp] at hc
        by_cases hn : n = name
        · subst hn
          exact .inr (Nat.le_of_eq (Option.some.inj ((AList.lookup_insert _).symm.trans hc)))
        · exact .inl ⟨hold, (AList.lookup_insert_ne hn).symm.trans hc⟩
      · rw [heap_link_other (m := m.issue) hold hbp] at hc
        exact .inl ⟨hold, hc⟩
    · rw [heap_link_new (m := m.issue) name inode hp] at hc
      cases hc
  | erase p name =>
    obtain rfl := h
    refine .inl ⟨hb, ?_⟩
    rw [heap_set] at hc
    split at hc
    · rename_i hbp
      exact hbp ▸ Mild.erase.child _ _ _ hc
    · exact hc
  | sweep p =>
    refine .inl ⟨h.2.next ▸ hb, ?_⟩
    by_cases hv : m.Visited p b
    · exact ((h.2.child b hv n c).mp hc).1
    · rw [Dentry.getChild, h.2.children b hv] at hc
      exact hc

theorem Edit.Leads.attached (hm : Inv m) (h : e.Leads m m') (ha : a < m.heapNext) (hat : Attached m' a) : Attached m a := by
  obtain ⟨hinv, hgrow⟩ := h.keeps hm
  induction hat with
  | root =>
    rw [hgrow.root]
    exact .root
  | @child b c n hb hc ih =>
    have hbn := hb.allocated hinv
    have hbc := (hinv.child b n c hbn hc).1
    rcases h.origin hbn hc with ⟨-, hold⟩ | hnew
    · exact (ih (Nat.lt_trans hbc ha)).child hold
    · exact absurd ha (Nat.not_lt.mpr hnew)

/-- Edits of the kinds `E`, one after the other. -/
def Edits (E : Edit → LocalMemMeta → Prop) : LocalMemMeta → LocalMemMeta → Prop :=
  ReflTransGen fun m m' => ∃ e, E e m ∧ e.Leads m m'

namespace Edits

theorem refl : Edits E m m := ReflTransGen.refl

theorem snoc (h : Edits E m m') (he : E e m') (hl : e.Leads m' m'') : Edits E m m'' := ReflTransGen.tail h ⟨e, he, hl⟩

theorem trans (h : Edits E m m') (h' : Edits E m' m'') : Edits E m m'' := ReflTransGen.trans h h'

theorem mono (h : Edits E m m') (hE : ∀ e m, E e m → E' e m) : Edits E' m m' :=
  ReflTransGen.mono (fun _ _ ⟨e, he, hl⟩ => ⟨e, hE e _ he, hl⟩) _ _ h

theorem grow (h : Edits E m m') (hm : Inv m) : Inv m' ∧ Grow m m' := by
  induction h with
  | refl => exact ⟨hm, .refl m⟩
  | tail _ hs ih =>
    obtain ⟨e, -, hl⟩ := hs
    obtain ⟨hinv, hgrow⟩ := hl.keeps ih.1
    exact ⟨hinv, ih.2.trans hgrow⟩

/-- What every edit keeps is kept. -/
theorem keeps {K : LocalMemMeta → Prop} (h : Edits E m m') (hm : Inv m) (hK : K m)
    (hstep : ∀ e m₁ m₂, Inv m₁ → Edits E m m₁ → K m₁ → E e m₁ → e.Leads m₁ m₂ → K m₂) : K m' := by
  induction h with
  | refl => exact hK
  | tail hrest hs ih =>
    obtain ⟨e, he, hl⟩ := hs
    exact hstep e _ _ (grow hrest hm).1 hrest ih he hl

/-- An old dentry that is in the tree was in the tree. -/
theorem attached {a : Addr} (h : Edits E m m') (hm : Inv m) (ha : a < m.heapNext) (hat : Attached m' a) : Attached m a := by
  induction h with
  | refl => exact hat
  | tail hrest hs ih =>
    obtain ⟨e, -, hl⟩ := hs
    obtain ⟨hinv, hgrow⟩ := grow hrest hm
    exact ih (hl.attached hinv (Nat.lt_of_lt_of_le ha hgrow.next) hat)

end Edits

/-- The key of the object of the dentry at `a`. -/
def ownKey (m : LocalMemMeta) (a : Addr) : Str := if (m.heap a).isDir then m.dirPrefix a else (m.fullPath a).getD []

end LocalMemMeta

/-- A load of `ino` lists the directory at `p` anew. -/
def World.Relists {σ : Type} (s : World σ) (ino : InodeID) (p : Addr) : Prop :=
  s.cache.lookup ino = some p ∧ (!(s.cache.heap p).complete || (s.cache.heap p).isExpired s.now) = true

namespace MetaImpl
variable {σ : Type} {opt : MetaOpt} {st : Stor σ} {s₀ : World σ} {pino ino : InodeID} {name pre : Str} {a p : Addr}

/-! ### The edits of each request -/

/-- The edits of `find_dentry`: an expired entry gets what `HEAD` answers for it, and a missing one is made for an object,
    or for a directory that is only a part of keys. The entry in question lives on. -/
inductive LookupEdit (opt : MetaOpt) (st : Stor σ) (s₀ : World σ) (pino : InodeID) (name : Str) :
    Edit → LocalMemMeta → Prop where
  | touch {m : LocalMemMeta} {p a : Addr} (hp : m.lookup pino = some p) (ha : (m.heap p).getChild name = some a) :
      LookupEdit opt st s₀ pino name (.alter a (·.incTtl s₀.now opt.dcacheTimeout)) m
  | update {p a : Addr} {resp : HeadFileResp} {t : σ} (hp : s₀.cache.lookup pino = some p)
      (ha : (s₀.cache.heap p).getChild name = some a) (hexpired : (s₀.cache.heap a).isExpired s₀.now = true)
      (hhead : st.headFile { objKey := s₀.cache.ownKey a } (.uninit s₀.garbage) s₀.stor = .ok resp t)
      (hfound : (!resp.exist && (s₀.cache.heap a).isDir) = false) :
      LookupEdit opt st s₀ pino name
        (.alter a (InodeUpdateAttr.apply
          { size := some resp.obj.size, mode := some (headMode resp.obj (s₀.cache.heap a).isDir), uid := resp.obj.uid
            gid := resp.obj.gid })) s₀.cache
  | object {p : Addr} (hp : s₀.cache.lookup pino = some p) (hnone : (s₀.cache.heap p).getChild name = none)
      (obj : ObjInfo) (isDir : Bool) :
      LookupEdit opt st s₀ pino name (.link p name (s₀.cache.objInode s₀.now obj isDir)) s₀.cache
  | virtual {p : Addr} (hp : s₀.cache.lookup pino = some p) (hnone : (s₀.cache.heap p).getChild name = none) :
      LookupEdit opt st s₀ pino name
        (.link p name (s₀.cache.newInode s₀.now (s₀.cache.heap p).inode.mode (s₀.cache.heap p).inode.gid
          (s₀.cache.heap p).inode.uid)) s₀.cache

inductive CreateEdit (opt : MetaOpt) (st : Stor σ) (s₀ : World σ) (pino : InodeID) (name : Str) (mode : Mode) :
    Edit → LocalMemMeta → Prop where
  | lookup {e : Edit} {m : LocalMemMeta} (h : LookupEdit opt st s₀ pino name e m) :
      CreateEdit opt st s₀ pino name mode e m
  | entry {p : Addr} (hp : s₀.cache.lookup pino = some p) (hnone : (s₀.cache.heap p).getChild name = none) :
      CreateEdit opt st s₀ pino name mode
        (.link p name (s₀.cache.newInode s₀.now mode (s₀.cache.heap p).inode.gid (s₀.cache.heap p).inode.uid)) s₀.cache

inductive RemoveEdit (opt : MetaOpt) (st : Stor σ) (s₀ : World σ) (pino : InodeID) (name : Str) :
    Edit → LocalMemMeta → Prop where
  | lookup {e : Edit} {m : LocalMemMeta} (h : LookupEdit opt st s₀ pino name e m) : RemoveEdit opt st s₀ pino name e m
  | entry {m : LocalMemMeta} {p : Addr} (hp : m.lookup pino = some p) : RemoveEdit opt st s₀ pino name (.erase p name) m

/-- A listing of `pre` that goes on behind `marker` in the state `t` comes to the page `resp`: each truncated page is followed
    by the one behind its marker. -/
inductive PageFrom (st : Stor σ) (pre : Str) : Str → σ → ListObjectsResp → Prop where
  | now {marker : Str} {t t' : σ} {resp : ListObjectsResp}
      (h : st.listObjects { delimiter := slash, pre, max := 1000, marker } t = .ok resp t') : PageFrom st pre marker t resp
  | later {marker : Str} {t t' : σ} {resp resp' : ListObjectsResp}
      (h : st.listObjects { delimiter := slash, pre, max := 1000, marker } t = .ok resp' t') (htrunc : resp'.isTrunc = true)
      (hrest : PageFrom st pre resp'.nextMarker t' resp) : PageFrom st pre marker t resp

/-- The page `resp` is one of those that a listing of `pre` in the state `t` comes to. -/
def ListedPage (st : Stor σ) (pre : Str) (t : σ) (resp : ListObjectsResp) : Prop := PageFrom st pre [] t resp

/-- A node of a page that a listing of `pre` from the state `t` on yields. -/
def ListedNode (st : Stor σ) (pre : Str) (t : σ) (node : FTreeNode) : Prop :=
  ∃ resp nodes, ListedPage st pre t resp ∧ buildFtree pre resp = some nodes ∧ node ∈ nodes

/-- The edits of `load_sub_dentries`: the directory is marked, the nodes of its pages are merged into its children, and a
    sweep follows. -/
inductive LoadEdit (st : Stor σ) (s₀ : World σ) (ino : InodeID) : Edit → LocalMemMeta → Prop where
  | mark {m : LocalMemMeta} {p : Addr} (hp : m.lookup ino = some p) : LoadEdit st s₀ ino (.alter p LocalMemMeta.mark) m
  | update {m : LocalMemMeta} {p c : Addr} {node : FTreeNode} (hp : m.lookup ino = some p)
      (hnode : ListedNode st (s₀.cache.dirPrefix p) s₀.stor node) (hc : (m.heap p).getChild node.name = some c) :
      LoadEdit st s₀ ino (.alter c (listedAs node.oinfo)) m
  | entry {m : LocalMemMeta} {p : Addr} {node : FTreeNode} (hp : m.lookup ino = some p) (hstale : s₀.Relists ino p)
      (hnode : ListedNode st (s₀.cache.dirPrefix p) s₀.stor node) (hnone : (m.heap p).getChild node.name = none) :
      LoadEdit st s₀ ino (.link p node.name (m.objInode s₀.now node.oinfo node.isDir)) m
  | marked {m : LocalMemMeta} {p c : Addr} {n : Str} (hp : m.lookup ino = some p) (hc : (m.heap p).getChild n = some c) :
      LoadEdit st s₀ ino (.alter c LocalMemMeta.mark) m
  | sweep {m : LocalMemMeta} {p : Addr} (hp : m.lookup ino = some p) : LoadEdit st s₀ ino (.sweep p) m

inductive SizeEdit (ino : InodeID) (size : Nat) : Edit → LocalMemMeta → Prop where
  | update {m : LocalMemMeta} {a : Addr} (ha : m.lookup ino = some a) :
      SizeEdit ino size
        (.alter a (InodeUpdateAttr.apply { size := some size, mode := none, uid := none, gid := none })) m

/-- The edits that the request makes when it begins in the state `s₀`. -/
def Request.Edits (opt : MetaOpt) (st : Stor σ) (s₀ : World σ) : Request → Edit → LocalMemMeta → Prop
  | .find pino name => LookupEdit opt st s₀ pino name
  | .create pino name mode => CreateEdit opt st s₀ pino name mode
  | .remove pino name => RemoveEdit opt st s₀ pino name
  | .load ino => LoadEdit st s₀ ino
  | .updateSize ino size => SizeEdit ino size

/-- The entry that the request looks up. -/
def Request.entry : Request → Option (InodeID × Str)
  | .find pino name | .create pino name _ | .remove pino name => some (pino, name)
  | .load _ | .updateSize _ _ => none

/-- A dentry is made for the entry that the request names, or for a node of a listing. -/
theorem Request.link_name {r : Request} {m : LocalMemMeta} {n : Str} {inode : Inode} (h : r.Edits opt st s₀ (.link p n inode) m) :
    (∃ pino, r.entry = some (pino, n)) ∨ ∃ ino, r = .load ino ∧ s₀.Relists ino p ∧
      ∃ node : FTreeNode, node.name = n ∧ ListedNode st (s₀.cache.dirPrefix p) s₀.stor node := by
  have hlookup : ∀ {pino name}, LookupEdit opt st s₀ pino name (.link p n inode) m → name = n := by
    intro pino name he
    cases he <;> rfl
  cases r with
  | find pino name => exact .inl ⟨pino, hlookup h ▸ rfl⟩
  | create pino name mode =>
    cases h with
    | lookup he => exact .inl ⟨pino, hlookup he ▸ rfl⟩
    | entry => exact .inl ⟨pino, rfl⟩
  | remove pino name =>
    cases h with
    | lookup he => exact .inl ⟨pino, hlookup he ▸ rfl⟩
  | load ino =>
    cases h with
    | entry hp hstale hnode hnone => exact .inr ⟨ino, rfl, hstale, _, rfl, hnode⟩
  | updateSize ino size => cases h

/-! ### Runs -/

section
variable {α : Type} {E : Edit → LocalMemMeta → Prop} {P : World σ → Prop} {Q : α → World σ → Prop} {q : MetaM σ α}

/-- From `s₀` to `s` the cache went through edits of the kinds `E`. -/
structure Trail (E : Edit → LocalMemMeta → Prop) (s₀ s : World σ) : Prop where
  inv : CacheInv s
  now : s.now = s₀.now
  edits : LocalMemMeta.Edits E s₀.cache s.cache

theorem Trail.grow {s : World σ} (h : Trail E s₀ s) (hm : CacheInv s₀) : Grow s₀.cache s.cache :=
  (Edits.grow h.edits hm).2

/-- Run from a state that a trail leads to, the program lengthens the trail. -/
abbrev Edited (E : Edit → LocalMemMeta → Prop) (s₀ : World σ) (P : World σ → Prop) (q : MetaM σ α) (Q : α → World σ → Prop) :
    Prop :=
  Behaves (fun s => Trail E s₀ s ∧ P s) q.run (fun a s => Trail E s₀ s ∧ Q a s) fun _ s => Trail E s₀ s

theorem edited_pre {P' : World σ → Prop} (h : Edited E s₀ P' q Q) (hP : ∀ s, P s → P' s) : Edited E s₀ P q Q :=
  Behaves.pre h fun s hs => ⟨hs.1, hP s hs.2⟩

theorem edited_fact {φ : Prop} (h : φ → Edited E s₀ P q Q) : Edited E s₀ (fun s => φ ∧ P s) q Q :=
  fun s hs => h hs.2.1 s ⟨hs.1, hs.2.2⟩

theorem edited_mono {E' : Edit → LocalMemMeta → Prop} (h : Edited E s₀ P q Q) (hE : ∀ e m, E e m → E' e m)
    (hstart : ∀ s, P s → s = s₀) : Edited E' s₀ P q Q := by
  rintro s ⟨hs, hP⟩
  obtain rfl := hstart s hP
  have hend := h s ⟨⟨hs.inv, rfl, .refl⟩, hP⟩
  cases hr : q.run s with
  | ok r s' =>
    rw [hr] at hend
    exact ⟨⟨hend.1.inv, hend.1.now, hend.1.edits.mono hE⟩, hend.2⟩
  | error e s' =>
    rw [hr] at hend
    exact ⟨hend.inv, hend.now, hend.edits.mono hE⟩

instance : Std.Refl fun s s' : World σ => s'.cache = s.cache ∧ s'.now = s.now := ⟨fun _ => ⟨rfl, rfl⟩⟩

instance : IsTrans (World σ) fun s s' => s'.cache = s.cache ∧ s'.now = s.now :=
  ⟨fun _ _ _ h h' => ⟨h'.1.trans h.1, h'.2.trans h.2⟩⟩

/-- A program that only looks at the cache. -/
theorem edited_looks {m : LocalMemMeta} (hq : Looks q) : Edited E s₀ (·.cache = m) q fun _ s => s.cache = m := by
  rintro s ⟨hs, rfl⟩
  obtain ⟨hinv, hcache, hnow⟩ := hq.run hs.inv
  cases hr : q.run s with
  | ok r s' =>
    rw [hr] at hinv hcache hnow
    exact ⟨⟨hinv, hnow.trans hs.now, hcache ▸ hs.edits⟩, hcache⟩
  | error e s' =>
    rw [hr] at hinv hcache hnow
    exact ⟨hinv, hnow.trans hs.now, hcache ▸ hs.edits⟩

theorem edited_looking (hq : Looks q) : Edited E s₀ P q fun _ _ => True := by
  rintro s ⟨hs, -⟩
  have hend := edited_looks hq s ⟨hs, rfl⟩
  cases hr : q.run s with
  | ok r s' =>
    rw [hr] at hend
    exact ⟨hend.1, trivial⟩
  | error e s' =>
    rw [hr] at hend
    exact hend

/-- A program that reads a value off the state it begins in. -/
theorem edited_value {r : α} (h : CacheInv s₀ → q.run s₀ = .ok r s₀) : Edited E s₀ (· = s₀) q fun r' s => r' = r ∧ s = s₀ := by
  rintro s ⟨hs, rfl⟩
  rw [h hs.inv]
  exact ⟨hs, rfl, rfl⟩

/-- A step that makes one edit. -/
theorem edited_cache {l : MetaAct} {f : Timespec → LocalM α} (h : ∀ s, CacheInv s → P s → ∃ r m' e,
    f s₀.now s.cache = .ok r m' ∧ E e s.cache ∧ e.Leads s.cache m' ∧ Q r { s with cache := m' }) :
    Edited E s₀ P (cache l f) Q := by
  rintro s ⟨hs, hP⟩
  obtain ⟨r, m', e, hrun, he, hl, hQ⟩ := h s hs.inv hP
  rw [← hs.now] at hrun
  rw [cache, Prog.run_lift, onCache, zoom, hrun]
  exact ⟨⟨(hl.keeps hs.inv).1, hs.now, hs.edits.snoc he hl⟩, hQ⟩

theorem edited_incTtl {timeout : MetaOpt} (h : ∀ s, CacheInv s → P s → a < s.cache.heapNext ∧
    E (.alter a (·.incTtl s₀.now timeout.dcacheTimeout)) s.cache) : Edited E s₀ P (incTtl timeout a) fun _ _ => True := by
  refine edited_cache fun s hs hP => ?_
  obtain ⟨ha, he⟩ := h s hs hP
  exact ⟨_, _, _, rfl, he, ⟨ha, Mild.incTtl, fun _ => rfl, rfl⟩, trivial⟩

/-! ### Lookups -/

section
variable (hm : CacheInv s₀)
include hm

/-- A child was made, and its ttl is set. -/
theorem edited_made {β : Type} {l : MetaAct} {f : Timespec → LocalM Addr} {inode : Inode} (hp : s₀.cache.lookup pino = some p)
    (hino : inode.ino = s₀.cache.nextInodeId)
    (hrun : p < s₀.cache.heapNext → f s₀.now s₀.cache = .ok s₀.cache.heapNext (s₀.cache.issue.link p name inode))
    (he : LookupEdit opt st s₀ pino name (.link p name inode) s₀.cache) (g : Addr → β) :
    Edited (LookupEdit opt st s₀ pino name) s₀ (·.cache = s₀.cache) (do
      let d ← cache l f
      incTtl opt d
      pure (g d) : MetaM σ β) fun r _ => ∃ d, r = g d := by
  have halloc := (hm.indexed _ _ hp).1
  have hfresh : Fresh s₀.cache.issue inode.ino := hino ▸ hm.fresh
  have hgrow : Grow s₀.cache (s₀.cache.issue.link p name inode) := Grow.issue.trans (.link hm.issue halloc hfresh)
  have hchild : ((s₀.cache.issue.link p name inode).heap p).getChild name = some s₀.cache.heapNext := by
    rw [heap_link_parent (m := s₀.cache.issue) halloc]
    exact AList.lookup_insert _
  have hmake : Edited (LookupEdit opt st s₀ pino name) s₀ (·.cache = s₀.cache) (cache l f) fun d s =>
      s.cache.lookup pino = some p ∧ (s.cache.heap p).getChild name = some d := by
    refine edited_cache fun s hs hcache => ?_
    rw [hcache]
    exact ⟨_, _, _, hrun halloc, he, ⟨halloc, hino, rfl⟩, hgrow.index _ _ hp, hchild⟩
  refine Prog.behaves_bind hmake fun d => Prog.behaves_bind (edited_incTtl ?_) fun _ => .pure fun s hs => ⟨hs.1, d, rfl⟩
  rintro s hs ⟨hp', hd⟩
  exact ⟨(hs.child p name d (hs.indexed _ _ hp').1 hd).2.1, .touch hp' hd⟩

theorem edited_findRemote (hp : s₀.cache.lookup pino = some p) (hnone : (s₀.cache.heap p).getChild name = none) :
    Edited (LookupEdit opt st s₀ pino name) s₀ (·.cache = s₀.cache) (findRemote opt st pino name) fun r s =>
      r = none → s.cache = s₀.cache := by
  obtain ⟨halloc, hino⟩ := hm.indexed _ _ hp
  have hget : Edited (LookupEdit opt st s₀ pino name) s₀ (·.cache = s₀.cache) (getDentry pino) fun r s =>
      r = some p ∧ s.cache = s₀.cache := by
    rintro s ⟨hs, hcache⟩
    exact ⟨hs, (congrArg (LocalMemMeta.lookup · pino) hcache).trans hp, hcache⟩
  have hread : Edited (LookupEdit opt st s₀ pino name) s₀ (·.cache = s₀.cache) (readDentry p) fun d s =>
      d = s₀.cache.heap p ∧ s.cache = s₀.cache := by
    rintro s ⟨hs, hcache⟩
    exact ⟨hs, congrArg (LocalMemMeta.heap · p) hcache, hcache⟩
  refine Prog.behaves_bind hget fun r => edited_fact fun hr => ?_
  subst hr
  refine Prog.behaves_bind (edited_looks looks_getRemoteObj) ?_
  rintro ⟨obj, exist, isDir⟩
  cases exist with
  | true =>
    refine Behaves.post (edited_made hm hp rfl (fun halloc => run_createDentryFromObj hp halloc) (.object hp hnone obj isDir) some)
      (fun r s hs => ⟨hs.1, fun h => ?_⟩) fun _ _ h => h
    obtain ⟨d, hd⟩ := hs.2
    cases hd.symm.trans h
  | false =>
    refine Prog.behaves_bind (edited_looks looks_pathWithSlash) fun pre =>
      Prog.behaves_bind (edited_looks looks_isRemoteDirExist) fun exist => ?_
    cases exist with
    | false => exact .pure fun s hs => ⟨hs.1, fun _ => hs.2⟩
    | true =>
      refine Prog.behaves_map (Prog.behaves_bind hread fun d => edited_fact fun hd => ?_)
      rw [hd, hino]
      refine Behaves.post (edited_made hm hp rfl (fun halloc => ?_) (.virtual hp hnone) id) (fun r s hs => ⟨hs.1, fun h => ?_⟩)
        fun _ _ h => h
      · rw [bind_ok run_createNewInode]
        exact run_createDentry (m := s₀.cache.issue) hp halloc
      · cases h

theorem run_headKey (ha : a < s₀.cache.heapNext) :
    (headKey a (s₀.cache.heap a).isDir : MetaM σ _).run s₀ = .ok (s₀.cache.ownKey a) s₀ := by
  rw [headKey, ownKey]
  split
  · exact run_pathWithSlash hm ha
  · obtain ⟨path, hpath⟩ := fullPath_some hm ha
    rw [hpath]
    exact run_cache_ok (run_getFullPath hpath)

theorem edited_revalidate (hp : s₀.cache.lookup pino = some p) (ha : (s₀.cache.heap p).getChild name = some a)
    (hexpired : (s₀.cache.heap a).isExpired s₀.now = true) :
    Edited (LookupEdit opt st s₀ pino name) s₀ (· = s₀) (revalidate opt st a) fun r _ => r = some a := by
  obtain ⟨-, halloc, -, -⟩ := hm.child p name a (hm.indexed _ _ hp).1 ha
  -- The entry is still the child of that name when its ttl is set.
  have hdone : ∀ P : World σ → Prop, (∀ s, P s → s.cache.lookup pino = some p ∧ (s.cache.heap p).getChild name = some a) →
      Edited (LookupEdit opt st s₀ pino name) s₀ P (do
        incTtl opt a
        pure (some a) : MetaM σ _) fun r _ => r = some a := by
    intro P hP
    refine Prog.behaves_bind (edited_incTtl fun s hs h => ?_) fun _ => .pure fun s hs => ⟨hs.1, rfl⟩
    obtain ⟨hp', ha'⟩ := hP s h
    exact ⟨(hs.child p name a (hs.indexed _ _ hp').1 ha').2.1, .touch hp' ha'⟩
  have hhead : Edited (LookupEdit opt st s₀ pino name) s₀ (· = s₀)
      (headFile st (s₀.cache.ownKey a) (.uninit s₀.garbage)) fun resp s => s.cache = s₀.cache ∧
        ∃ t, st.headFile { objKey := s₀.cache.ownKey a } (.uninit s₀.garbage) s₀.stor = .ok resp t := by
    rintro s ⟨hs, rfl⟩
    rw [headFile, call, Prog.run_lift, zoom]
    cases hr : st.headFile { objKey := s.cache.ownKey a } (.uninit s.garbage) s.stor with
    | ok resp t => exact ⟨⟨hs.inv, rfl, .refl⟩, rfl, t, rfl⟩
    | error e t => exact ⟨hs.inv, rfl, .refl⟩
  refine Prog.behaves_bind (edited_value fun _ => rfl) fun d => edited_fact fun hd => ?_
  subst hd
  refine Prog.behaves_bind (edited_value fun _ => run_headKey hm halloc) fun key => edited_fact fun hkey => ?_
  subst hkey
  refine Prog.behaves_bind (edited_value (q := headResp) fun _ => rfl) fun resp => edited_fact fun hresp => ?_
  subst hresp
  refine Prog.behaves_bind hhead fun resp => ?_
  have hstill : ∀ s : World σ, s.cache = s₀.cache → s.cache.lookup pino = some p ∧ (s.cache.heap p).getChild name = some a := by
    intro s hs
    rw [hs]
    exact ⟨hp, ha⟩
  cases hfound : !resp.exist && (s₀.cache.heap a).isDir with
  | true => exact hdone _ fun s hs => hstill s hs.1
  | false =>
    refine Prog.behaves_bind (Q := fun _ s => Trail (LookupEdit opt st s₀ pino name) s₀ s ∧
      s.cache.lookup pino = some p ∧ (s.cache.heap p).getChild name = some a) ?_ fun _ => hdone _ fun s hs => hs
    refine edited_cache fun s hs hP => ?_
    obtain ⟨hcache, t, hr⟩ := hP
    rw [hcache]
    refine ⟨_, _, _, run_updateInode (hm.index a halloc), .update hp ha hexpired hr hfound,
      ⟨halloc, Mild.apply, fun _ => rfl, rfl⟩, hp, ?_⟩
    have hlt := (hm.child p name a (hm.indexed _ _ hp).1 ha).1
    show (((s₀.cache.set a _).heap p).getChild name) = some a
    rw [heap_set_ne (Nat.ne_of_lt hlt)]
    exact ha

theorem edited_findDentry : Edited (LookupEdit opt st s₀ pino name) s₀ (· = s₀) (findDentry opt st pino name false)
    fun r s => r = none → s.cache = s₀.cache ∧ ∃ p, s₀.cache.lookup pino = some p ∧ (s₀.cache.heap p).getChild name = none := by
  cases hp : s₀.cache.lookup pino with
  | none =>
    rintro s ⟨hs, rfl⟩
    have hfind : (cache (.find pino name) fun _ => LocalMemMeta.findDentry pino name : MetaM σ _).run s =
        .error (.invalidInodeID pino) s := by
      rw [cache, Prog.run_lift, onCache, zoom, run_findDentry_none hp]
    rw [findDentry, Prog.run_bind_error hfind]
    exact hs
  | some p =>
    have hfind : Edited (LookupEdit opt st s₀ pino name) s₀ (· = s₀)
        (cache (.find pino name) fun _ => LocalMemMeta.findDentry pino name) fun r s =>
          r = (s₀.cache.heap p).getChild name ∧ s = s₀ :=
      edited_value fun _ => run_cache_ok (LocalMemMeta.run_findDentry hp)
    refine Prog.behaves_bind hfind fun r => edited_fact fun hr => ?_
    cases r with
    | none =>
      exact Behaves.post (edited_pre (edited_findRemote hm hp hr.symm) fun s hs => congrArg World.cache hs)
        (fun r s hs => ⟨hs.1, fun h => ⟨hs.2 h, p, rfl, hr.symm⟩⟩) fun _ _ h => h
    | some a =>
      refine Prog.behaves_bind (edited_value (q := isExpired a) fun _ => rfl) fun expired => edited_fact fun he => ?_
      cases expired with
      | false =>
        refine .pure fun s hs => ⟨hs.1, fun h => ?_⟩
        cases h
      | true =>
        refine Behaves.post (edited_revalidate hm hp hr.symm he.symm) (fun r s hs => ⟨hs.1, fun h => ?_⟩) fun _ _ h => h
        cases h.symm.trans hs.2

/-! ### The other requests -/

theorem edited_createDentry {mode : Mode} : Edited (CreateEdit opt st s₀ pino name mode) s₀ (· = s₀)
    (createDentry opt st pino name mode) fun _ _ => True := by
  refine Prog.behaves_bind (edited_mono (edited_findDentry hm) (fun _ _ => .lookup) fun _ h => h) fun r => ?_
  cases r with
  | some d => exact .pure fun _ hs => ⟨hs.1, trivial⟩
  | none =>
    suffices h : (∃ p, s₀.cache.lookup pino = some p ∧ (s₀.cache.heap p).getChild name = none) →
        Edited (CreateEdit opt st s₀ pino name mode) s₀ (·.cache = s₀.cache) _ fun _ _ => True from
      edited_pre (edited_fact h) fun s hs => (hs rfl).symm
    rintro ⟨p, hp, hnone⟩
    obtain ⟨halloc, -⟩ := hm.indexed _ _ hp
    have hget : Edited (CreateEdit opt st s₀ pino name mode) s₀ (·.cache = s₀.cache) (getDentry pino) fun r s =>
        r = some p ∧ s.cache = s₀.cache := by
      rintro s ⟨hs, hcache⟩
      exact ⟨hs, (congrArg (LocalMemMeta.lookup · pino) hcache).trans hp, hcache⟩
    have hread : Edited (CreateEdit opt st s₀ pino name mode) s₀ (·.cache = s₀.cache) (readDentry p) fun d s =>
        d = s₀.cache.heap p ∧ s.cache = s₀.cache := by
      rintro s ⟨hs, hcache⟩
      exact ⟨hs, congrArg (LocalMemMeta.heap · p) hcache, hcache⟩
    have hderef : Edited (CreateEdit opt st s₀ pino name mode) s₀ (·.cache = s₀.cache) (deref (some p)) fun a s =>
        a = p ∧ s.cache = s₀.cache := .pure fun s hs => ⟨hs.1, rfl, hs.2⟩
    refine Prog.behaves_bind hget fun r => edited_fact fun hr => ?_
    subst hr
    refine Prog.behaves_bind hderef fun a => edited_fact fun ha => ?_
    subst ha
    refine Prog.behaves_bind (edited_looks looks_newKey) fun key => Prog.behaves_bind hread fun d => edited_fact fun hd => ?_
    subst hd
    refine Prog.behaves_bind (edited_looks (looks_call rfl)) fun _ => edited_cache fun s hs hcache => ?_
    rw [hcache]
    refine ⟨s₀.cache.heapNext, _, _, ?_, .entry hp hnone, ⟨halloc, rfl, rfl⟩, trivial⟩
    rw [bind_ok run_createNewInode]
    exact run_createDentry (m := s₀.cache.issue) hp halloc

theorem edited_removeDentry : Edited (RemoveEdit opt st s₀ pino name) s₀ (· = s₀) (removeDentry opt st pino name)
    fun _ _ => True := by
  have hfind : Edited (RemoveEdit opt st s₀ pino name) s₀ (· = s₀) (findDentry opt st pino name false) fun _ _ => True :=
    Behaves.post (edited_mono (edited_findDentry hm) (fun _ _ => .lookup) fun _ h => h) (fun _ _ hs => ⟨hs.1, trivial⟩)
      fun _ _ h => h
  have herase : Edited (RemoveEdit opt st s₀ pino name) s₀ (fun _ => True)
      (cache (.erase pino name) fun _ => LocalMemMeta.removeDentry pino name) fun _ _ => True := by
    rintro s ⟨hs, -⟩
    rw [cache, Prog.run_lift, onCache, zoom]
    cases hp : s.cache.lookup pino with
    | some p =>
      rw [run_removeDentry hp]
      have hleads : (Edit.erase p name).Leads s.cache _ := rfl
      exact ⟨⟨hs.inv.set Mild.erase, hs.now, hs.edits.snoc (.entry hp) hleads⟩, trivial⟩
    | none =>
      rw [run_removeDentry_none hp]
      exact hs
  refine Prog.behaves_bind hfind fun r => ?_
  cases r with
  | none => exact .pure fun _ hs => hs
  | some a =>
    refine Prog.behaves_bind (edited_looking looks_fullPath) fun path =>
      Prog.behaves_bind (edited_looking looks_readDentry) fun d => Prog.behaves_ite (Prog.behaves_ite ?_ ?_) ?_
    · exact .throw fun _ hs => hs.1
    · exact Prog.behaves_bind (edited_looking (looks_call rfl)) fun _ => herase
    · exact Prog.behaves_bind (edited_looking (looks_call rfl)) fun _ => herase

omit hm in
theorem edited_updateSize {size : Nat} : Edited (SizeEdit ino size) s₀ (fun _ => True) (updateInodeSize ino size)
    fun _ _ => True := by
  rintro s ⟨hs, -⟩
  rw [updateInodeSize, MetaImpl.updateInode, cache, Prog.run_lift, onCache, zoom]
  cases ha : s.cache.lookup ino with
  | some a =>
    rw [run_updateInode ha]
    have hleads : (Edit.alter a (InodeUpdateAttr.apply { size := some size, mode := none, uid := none, gid := none })).Leads
        s.cache _ := ⟨(hs.inv.indexed _ _ ha).1, Mild.apply, fun _ => rfl, rfl⟩
    exact ⟨⟨hs.inv.set Mild.apply, hs.now, hs.edits.snoc (.update ha) hleads⟩, trivial⟩
  | none =>
    rw [run_updateInode_none ha]
    exact hs

end

/-! ### Listings -/

/-- A listing of `pre` in the state `t` goes on behind `marker` in the state `t'`. -/
def GoesOn (st : Stor σ) (pre : Str) (t : σ) (marker : Str) (t' : σ) : Prop :=
  ∀ resp, PageFrom st pre marker t' resp → ListedPage st pre t resp

/-- One node is merged. -/
theorem edits_merge {m : LocalMemMeta} {node : FTreeNode} (hinv : Inv m) (hp : m.lookup ino = some p)
    (hstale : s₀.Relists ino p) (hnode : ListedNode st (s₀.cache.dirPrefix p) s₀.stor node) :
    LocalMemMeta.Edits (LoadEdit st s₀ ino) m (m.merge s₀.now p node) := by
  have halloc := (hinv.indexed _ _ hp).1
  unfold merge
  cases hc : (m.heap p).getChild node.name with
  | some c =>
    have hleads : (Edit.alter c (listedAs node.oinfo)).Leads m (m.set c (listedAs node.oinfo)) :=
      ⟨(hinv.child p _ c halloc hc).2.1, Mild.listedAs, fun _ => rfl, rfl⟩
    exact Edits.refl.snoc (.update hp hnode hc) hleads
  | none =>
    have hlink : (Edit.link p node.name (m.objInode s₀.now node.oinfo node.isDir)).Leads m _ := ⟨halloc, rfl, rfl⟩
    obtain ⟨hinv', hgrow⟩ := hlink.keeps hinv
    have hchild : ((m.issue.link p node.name (m.objInode s₀.now node.oinfo node.isDir)).heap p).getChild node.name =
        some m.heapNext := by
      rw [heap_link_parent (m := m.issue) halloc]
      exact AList.lookup_insert _
    have hmark : (Edit.alter m.heapNext LocalMemMeta.mark).Leads
        (m.issue.link p node.name (m.objInode s₀.now node.oinfo node.isDir)) _ :=
      ⟨Nat.lt_succ_self _, Mild.synced, fun _ => rfl, rfl⟩
    exact (Edits.refl.snoc (.entry hp hstale hnode hc) hlink).snoc (.marked (hgrow.index _ _ hp) hchild) hmark

theorem edits_children {m m' : LocalMemMeta} {nodes : List FTreeNode} (hinv : Inv m) (hp : m.lookup ino = some p)
    (hstale : s₀.Relists ino p) (hnodes : ∀ node ∈ nodes, node.children = [] ∧ ListedNode st (s₀.cache.dirPrefix p) s₀.stor node)
    (hrun : buildChildren s₀.now p nodes m = .ok () m') : LocalMemMeta.Edits (LoadEdit st s₀ ino) m m' := by
  have halloc := (hinv.indexed _ _ hp).1
  induction nodes generalizing m with
  | nil =>
    rw [buildChildren] at hrun
    obtain ⟨-, rfl⟩ := Result.ok.inj hrun
    exact .refl
  | cons node rest ih =>
    obtain ⟨hflat, hlisted⟩ := hnodes node List.mem_cons_self
    have hstep := built_merge s₀.now node hinv halloc
    rw [buildChildren, bind_ok (run_buildChild hinv halloc hflat)] at hrun
    exact (edits_merge hinv hp hstale hlisted).trans (ih hstep.inv (hstep.grow.index _ _ hp)
      (fun n hn => hnodes n (List.mem_cons_of_mem _ hn)) hrun (Nat.lt_of_lt_of_le halloc hstep.grow.next))

theorem edits_build {m m' : LocalMemMeta} {nodes : List FTreeNode} (hinv : Inv m) (hp : m.lookup ino = some p)
    (hstale : s₀.Relists ino p) (hnodes : ∀ node ∈ nodes, node.children = [] ∧ ListedNode st (s₀.cache.dirPrefix p) s₀.stor node)
    (hrun : buildDentries s₀.now ino nodes m = .ok () m') : LocalMemMeta.Edits (LoadEdit st s₀ ino) m m' := by
  rw [buildDentries, bind_ok run_getDentry, hp] at hrun
  have hmark : (Edit.alter p LocalMemMeta.mark).Leads m (m.set p LocalMemMeta.mark) :=
    ⟨(hinv.indexed _ _ hp).1, Mild.synced, fun _ => rfl, rfl⟩
  exact (Edits.refl.snoc (.mark hp) hmark).trans (edits_children (hinv.set Mild.synced) hp hstale hnodes hrun)

theorem edited_refreshLoop (hm : CacheInv s₀) (hp : s₀.cache.lookup ino = some p) (hstale : s₀.Relists ino p)
    (fuel : Nat) (marker : Str) :
    Edited (LoadEdit st s₀ ino) s₀ (fun s => GoesOn st (s₀.cache.dirPrefix p) s₀.stor marker s.stor)
      (refreshLoop st ino (s₀.cache.dirPrefix p) fuel marker) fun _ _ => True := by
  induction fuel generalizing marker with
  | zero => exact .throw fun _ hs => hs.1
  | succ fuel ih =>
    have hpage : Edited (LoadEdit st s₀ ino) s₀ (fun s => GoesOn st (s₀.cache.dirPrefix p) s₀.stor marker s.stor)
        (call (.list (s₀.cache.dirPrefix p) marker)
          (st.listObjects { delimiter := slash, pre := s₀.cache.dirPrefix p, max := 1000, marker })) fun resp s =>
        ListedPage st (s₀.cache.dirPrefix p) s₀.stor resp ∧
          (resp.isTrunc = true → GoesOn st (s₀.cache.dirPrefix p) s₀.stor resp.nextMarker s.stor) := by
      rintro s ⟨hs, hfrom⟩
      rw [call, Prog.run_lift, zoom]
      cases hr : st.listObjects { delimiter := slash, pre := s₀.cache.dirPrefix p, max := 1000, marker } s.stor with
      | ok resp t =>
        exact ⟨⟨hs.inv, hs.now, hs.edits⟩, hfrom resp (.now hr), fun htrunc resp' h => hfrom resp' (.later hr htrunc h)⟩
      | error e t => exact ⟨hs.inv, hs.now, hs.edits⟩
    refine Prog.behaves_bind hpage fun resp => edited_fact fun hresp => ?_
    cases hft : buildFtree (s₀.cache.dirPrefix p) resp with
    | none => exact .throw fun _ hs => hs.1
    | some nodes =>
      have hbuild : Edited (LoadEdit st s₀ ino) s₀
          (fun s => resp.isTrunc = true → GoesOn st (s₀.cache.dirPrefix p) s₀.stor resp.nextMarker s.stor)
          (cache (.build ino (nodes.map FTreeNode.name)) fun now => LocalMemMeta.buildDentries now ino nodes) fun _ s =>
            resp.isTrunc = true → GoesOn st (s₀.cache.dirPrefix p) s₀.stor resp.nextMarker s.stor := by
        rintro s ⟨hs, hfrom⟩
        have hp' : s.cache.lookup ino = some p := (hs.grow hm).index _ _ hp
        obtain ⟨m', hrun, hb⟩ := run_buildDentries s.now hs.inv hp' (flat_buildFtree hft)
        rw [cache, Prog.run_lift, onCache, zoom, hrun]
        rw [hs.now] at hrun
        exact ⟨⟨hb.inv, hs.now, hs.edits.trans (edits_build hs.inv hp' hstale (fun node hn => ⟨flat_buildFtree hft node hn, resp, nodes,
          hresp, hft, hn⟩) hrun)⟩, hfrom⟩
      refine Prog.behaves_bind hbuild fun _ => ?_
      cases htrunc : resp.isTrunc with
      | false => exact .pure fun _ hs => ⟨hs.1, trivial⟩
      | true => exact edited_pre (ih _) fun _ hs => hs rfl

theorem edited_loadSubDentries (hm : CacheInv s₀) {fuel : Nat} :
    Edited (LoadEdit st s₀ ino) s₀ (· = s₀) (loadSubDentries st fuel ino) fun _ _ => True := by
  refine Prog.behaves_bind (edited_value (q := getDentry ino) fun _ => run_cache_ok run_getDentry) fun r => edited_fact fun hr => ?_
  cases r with
  | none => exact .throw fun _ hs => hs.1
  | some p =>
    obtain ⟨halloc, hino⟩ := hm.indexed _ _ hr.symm
    have hlist : Edited (LoadEdit st s₀ ino) s₀ (fun _ => True) (listChildren p : MetaM σ _) fun _ _ => True :=
      edited_looking looks_listChildren
    have hsweep : Edited (LoadEdit st s₀ ino) s₀ (fun _ => True)
        (cache (.sweep p) fun now => LocalMemMeta.clearUnsyncDentry now p) fun _ _ => True := by
      rintro s ⟨hs, -⟩
      have hp' := (hs.grow hm).index _ _ hr.symm
      have halloc' := (hs.inv.indexed _ _ hp').1
      obtain ⟨m', hrun, hswept⟩ := run_clearUnsyncDentry s.now hs.inv halloc'
      have hleads : (Edit.sweep p).Leads s.cache m' := ⟨halloc', hswept⟩
      rw [cache, Prog.run_lift, onCache, zoom, hrun]
      exact ⟨⟨hswept.inv, hs.now, hs.edits.snoc (.sweep hp') hleads⟩, trivial⟩
    refine Prog.behaves_bind (edited_value (q := needsRefresh p) fun _ => rfl) fun stale => edited_fact fun hneeds => ?_
    cases stale with
    | false => exact edited_pre hlist fun _ _ => trivial
    | true =>
      have hstale : s₀.Relists ino p := ⟨hr.symm, hneeds.symm⟩
      rw [if_pos rfl]
      refine Prog.behaves_bind (Q := fun _ s => Trail (LoadEdit st s₀ ino) s₀ s ∧ True) ?_ fun _ => hlist
      refine Prog.behaves_bind (edited_value fun _ => run_pathWithSlash hm halloc) fun pre => edited_fact fun hpre => ?_
      subst hpre
      refine Prog.behaves_bind (edited_value (q := readDentry p) fun _ => rfl) fun d => edited_fact fun hd => ?_
      subst hd
      rw [hino]
      refine Prog.behaves_bind (edited_pre (edited_refreshLoop hm hr.symm hstale fuel []) fun s hs => ?_) fun _ => hsweep
      rw [hs]
      exact fun _ h => h

variable (opt st) in
/-- Run alone, a request leads through its edits. -/
theorem request_edits (hm : CacheInv s₀) (fuel : Nat) (r : Request) :
    Trail (r.Edits opt st s₀) s₀ (endState ((r.prog opt st fuel).run s₀)) := by
  have hrun : Edited (r.Edits opt st s₀) s₀ (· = s₀) (r.prog opt st fuel) fun _ _ => True := by
    cases r with
    | find pino name =>
      exact Prog.behaves_map (Behaves.post (edited_findDentry hm) (fun _ _ hs => ⟨hs.1, trivial⟩) fun _ _ h => h)
    | create pino name mode => exact Prog.behaves_map (edited_createDentry hm)
    | remove pino name => exact edited_removeDentry hm
    | load ino => exact Prog.behaves_map (edited_loadSubDentries hm)
    | updateSize ino size => exact edited_pre edited_updateSize fun _ _ => trivial
  have hend := hrun s₀ ⟨⟨hm, rfl, .refl⟩, rfl⟩
  cases hr : (r.prog opt st fuel).run s₀ with
  | ok x s =>
    rw [hr] at hend
    exact hend.1
  | error e s =>
    rw [hr] at hend
    exact hend

end

/-! ### Runs of many requests -/

/-- The states that `s` leads to by requests that are `allowed`, run one after the other. Between them the store, the clock
    and uninitialised memory change in any way. -/
inductive Requests (opt : MetaOpt) (st : Stor σ) (allowed : Request → World σ → Prop) (s : World σ) : World σ → Prop where
  | start : Requests opt st allowed s s
  | request {s' : World σ} (h : Requests opt st allowed s s') (fuel : Nat) (r : Request) (hr : allowed r s') :
      Requests opt st allowed s (endState ((r.prog opt st fuel).run s'))
  | outside {s' : World σ} (h : Requests opt st allowed s s') (t : σ) (now : Timespec) (garbage : Garbage) :
      Requests opt st allowed s { s' with stor := t, now, garbage }

/-- What the edits of every allowed request keep is kept. -/
theorem Requests.keeps {allowed : Request → World σ → Prop} {K : LocalMemMeta → Prop} {s s' : World σ}
    (h : Requests opt st allowed s s') (hs : CacheInv s) (hK : K s.cache)
    (hrequest : ∀ s₁ r, CacheInv s₁ → allowed r s₁ → K s₁.cache → ∀ e m m', m.Inv →
      LocalMemMeta.Edits (r.Edits opt st s₁) s₁.cache m → K m → r.Edits opt st s₁ e m → e.Leads m m' → K m') :
    CacheInv s' ∧ Grow s.cache s'.cache ∧ K s'.cache := by
  induction h with
  | start => exact ⟨hs, .refl _, hK⟩
  | outside _ t now garbage ih => exact ih
  | @request s₁ _ fuel r hr ih =>
    obtain ⟨hinv, hgrow, hk⟩ := ih
    have htrail := request_edits opt st hinv fuel r
    exact ⟨htrail.inv, hgrow.trans (htrail.grow hinv), htrail.edits.keeps hinv hk (hrequest s₁ r hinv hr hk)⟩

end MetaImpl

end Catfs
