import Catfs.Theorems.CompleteDirs
import Catfs.Theorems.FileTypes
import Catfs.Theorems.HandleRun
import Catfs.Theorems.Namespace

/-! # Paths and keys

The full path of a dentry in the tree is the names on the way to it, and the keys that the requests build for the entry
of a directory are the ones that the entry's own path gives. -/

namespace Catfs

open Lib MetaM LocalMemMeta
open MetaImpl (PageUnder keyEnd)
open EStateM (Result)

/-- What the code relies on of a store: listings name what lies directly under their prefix, and an object found by `HEAD`
    has no stored mode. -/
structure Stor.Delimited {σ : Type} (st : Stor σ) : Prop where
  pages : ∀ pre marker t resp t', st.listObjects { delimiter := slash, pre, max := 1000, marker } t = .ok resp t' →
    PageUnder pre resp
  head : ∀ req resp t resp' t', st.headFile req resp t = .ok resp' t' → resp.obj.mode = none → resp'.obj.mode = none

theorem S3Client.Serves.delimited {σ : Type} {c : S3Client σ} {view : σ → Bucket} (hc : c.Serves view) : (s3Stor c).Delimited where
  pages pre marker t resp t' hrun := by
    obtain ⟨r, t₁, hr, -, hunder⟩ := MetaImpl.page_served hc t pre marker
    obtain ⟨rfl, -⟩ := Result.ok.inj ((MetaImpl.run_listObjects hr).symm.trans hrun)
    exact MetaImpl.pageUnder_page hunder _
  head _ _ _ _ _ h hnone := MetaImpl.mode_headFile hnone h

/-- The key of the entry at `path`. -/
def entryKey (path : Str) (isDir : Bool) : Str := if isDir then path ++ slash else path

theorem append_keyEnd {path : Str} {mode : Mode} : path ++ keyEnd mode = entryKey path (mode &&& S_IFDIR != 0) := by
  unfold keyEnd entryKey
  split
  · rfl
  · exact List.append_nil _

namespace LocalMemMeta
variable {m m₀ m' : LocalMemMeta} {a c p : Addr} {n path : Str} {ws : List Str} {e : Edit}

/-! ### Paths -/

theorem PathTo.walk (h : PathTo m a ws) : m.walkFrom ws = some a := by
  induction h with
  | root => rfl
  | @child b c ws n _ hc ih => rw [walkFrom, walk_concat, show Lib.walk _ _ ws = _ from ih, Option.bind_some, hc]

theorem terminated_intercalate (ws : List Str) (n : Str) : terminated '/' ws ++ n = slash.intercalate (ws ++ [n]) := by
  induction ws with
  | nil => simp
  | cons w ws ih =>
    have hne : ws ++ [n] ≠ [] := by simp
    rw [terminated_cons, List.cons_append, List.intercalate_cons_of_ne_nil hne, ← ih]
    simp [slash]

/-- The full path is the names on the way from the root, joined by slashes. -/
theorem PathTo.fullPath (hm : Inv m) (h : PathTo m a ws) (hroot : a ≠ m.rootDentry) :
    m.fullPath a = some (slash.intercalate ws) ∧ ws ≠ [] := by
  cases h with
  | root => exact absurd rfl hroot
  | @child p _ vs n hp hc =>
    refine ⟨?_, by simp⟩
    rw [fullPath_child hm (hp.attached.allocated hm) hc, hp.dirPrefix hm, terminated_intercalate]

/-- The components of the full path lead back. -/
theorem Attached.walk_fullPath (hm : Inv m) (hplain : PlainNames m) (h : Attached m a) (hroot : a ≠ m.rootDentry) :
    ∃ ws, PathTo m a ws ∧ m.fullPath a = some (slash.intercalate ws) ∧
      m.walkFrom ((slash.intercalate ws).splitOn '/') = some a := by
  obtain ⟨ws, hws⟩ := h.path
  obtain ⟨hpath, hne⟩ := hws.fullPath hm hroot
  refine ⟨ws, hws, hpath, ?_⟩
  rw [slash, List.splitOn_intercalate '/' (hws.plain hm hplain) hne]
  exact hws.walk

theorem fullPath_inj (hm : Inv m) (hplain : PlainNames m) (ha : Attached m a) (hc : Attached m c) (ha' : a ≠ m.rootDentry)
    (hc' : c ≠ m.rootDentry) (h : m.fullPath a = m.fullPath c) : a = c := by
  obtain ⟨ws, -, hpath, hwalk⟩ := ha.walk_fullPath hm hplain ha'
  obtain ⟨vs, -, hpath', hwalk'⟩ := hc.walk_fullPath hm hplain hc'
  rw [hpath, hpath'] at h
  rw [Option.some.inj h, hwalk'] at hwalk
  exact Option.some.inj hwalk.symm

theorem PlainNames.edit (hm : Inv m) (h : PlainNames m) (hl : e.Leads m m')
    (hlink : ∀ p n inode, e = .link p n inode → '/' ∉ n) : PlainNames m' := by
  have hgrow := (hl.keeps hm).2
  intro a ha
  have hold : a < m.heapNext → '/' ∉ (m'.heap a).name := by
    intro halloc
    rw [hgrow.name a halloc]
    exact h a halloc
  cases e with
  | alter b f =>
    obtain ⟨-, -, -, rfl⟩ := id hl
    exact hold ha
  | erase p name =>
    obtain rfl := id hl
    exact hold ha
  | sweep p => exact hold (hl.2.next ▸ ha)
  | link p name inode =>
    obtain ⟨hp, -, rfl⟩ := id hl
    rcases Nat.lt_succ_iff_lt_or_eq.mp ha with halloc | rfl
    · exact hold halloc
    · rw [heapNext_issue, show (m.issue.link p name inode).heap m.heapNext = _ from heap_link_new (m := m.issue) name inode hp]
      exact hlink p name inode rfl

/-! ### Kinds -/

/-- The dentries of `m₀` are directories where they were. -/
def KindsFrom (m₀ m : LocalMemMeta) : Prop := ∀ a, a < m₀.heapNext → (m.heap a).isDir = (m₀.heap a).isDir

theorem KindsFrom.set {f : Dentry → Dentry} (h : KindsFrom m₀ m) (hf : (f (m.heap a)).isDir = (m.heap a).isDir) :
    KindsFrom m₀ (m.set a f) := by
  intro b hb
  by_cases hba : b = a
  · rw [hba, heap_set_self, hf, ← hba, h b hb]
  · rw [heap_set_ne hba, h b hb]

theorem KindsFrom.link {inode : Inode} (h : KindsFrom m₀ m) (hp : p < m.heapNext) (hnext : m₀.heapNext ≤ m.heapNext) :
    KindsFrom m₀ (m.link p n inode) := by
  intro b hb
  rw [← h b hb]
  by_cases hbp : b = p
  · rw [hbp, heap_link_parent hp]
    rfl
  · rw [heap_link_other (Nat.lt_of_lt_of_le hb hnext) hbp]

end LocalMemMeta

namespace MetaImpl
variable {σ : Type} {opt : MetaOpt} {st : Stor σ} {s s' : World σ} {pino ino : InodeID} {n pre : Str}
  {m m₀ m' : LocalMemMeta} {p a c : Addr}
  {e : Edit}

/-! ### The edits of a request -/

theorem plain_listedNode (hst : st.Delimited) {t : σ} {node : FTreeNode} (h : ListedNode st pre t node) : '/' ∉ node.name := by
  obtain ⟨resp, nodes, hlisted, hft, hnode⟩ := h
  have hunder : ∀ {marker t resp}, PageFrom st pre marker t resp → PageUnder pre resp := by
    intro marker t resp hfrom
    induction hfrom with
    | now hrun => exact hst.pages _ _ _ _ _ hrun
    | later _ _ _ ih => exact ih
  have hpage : PageUnder pre resp := hunder hlisted
  obtain ⟨nodes', hft', hof, -⟩ := buildFtree_some hpage
  obtain rfl := Option.some.inj (hft.symm.trans hft')
  rcases (hof node hnode).2 with ⟨-, -, -, hprefix⟩ | ⟨-, hobj, hname⟩
  · obtain ⟨k, hk, hs⟩ := hpage.prefixes _ hprefix
    rw [List.append_assoc, List.append_assoc] at hk
    rw [List.append_cancel_right (List.append_cancel_left hk)]
    exact hs
  · obtain ⟨k, hk, hs⟩ := hpage.objs _ hobj
    rw [List.append_cancel_left (hname.symm.trans hk)]
    exact hs

theorem kindsFrom_lookupEdit (hst : st.Delimited) (hnext : m₀.heapNext ≤ m.heapNext) (h : KindsFrom m₀ m)
    (he : LookupEdit opt st s pino n e m) (hl : e.Leads m m') : KindsFrom m₀ m' := by
  cases he with
  | touch hp ha =>
    obtain ⟨-, -, -, rfl⟩ := hl
    exact h.set rfl
  | @update p a resp t hp ha hexpired hhead hfound =>
    obtain ⟨-, -, -, rfl⟩ := hl
    refine h.set ?_
    show (headMode resp.obj (s.cache.heap a).isDir &&& S_IFDIR != 0) = (s.cache.heap a).isDir
    rw [headMode, hst.head _ _ _ _ _ hhead rfl]
    cases (s.cache.heap a).isDir <;> decide
  | object hp hnone obj isDir =>
    obtain ⟨halloc, -, rfl⟩ := hl
    exact KindsFrom.link (m := s.cache.issue) h halloc hnext
  | «virtual» hp hnone =>
    obtain ⟨halloc, -, rfl⟩ := hl
    exact KindsFrom.link (m := s.cache.issue) h halloc hnext

theorem kindsFrom_edit (hst : st.Delimited) {r : Request} (hnext : m₀.heapNext ≤ m.heapNext) (h : KindsFrom m₀ m)
    (he : r.Edits opt st s e m) (hl : e.Leads m m') : KindsFrom m₀ m' := by
  cases r with
  | find pino name => exact kindsFrom_lookupEdit hst hnext h he hl
  | create pino name mode =>
    cases he with
    | lookup he => exact kindsFrom_lookupEdit hst hnext h he hl
    | entry hp hnone =>
      obtain ⟨halloc, -, rfl⟩ := hl
      exact KindsFrom.link (m := s.cache.issue) h halloc hnext
  | remove pino name =>
    cases he with
    | lookup he => exact kindsFrom_lookupEdit hst hnext h he hl
    | entry hp =>
      obtain rfl := hl
      exact h.set rfl
  | load ino =>
    cases he with
    | mark | update | marked =>
      obtain ⟨-, -, -, rfl⟩ := hl
      exact h.set rfl
    | entry hp hlists hnode hnone =>
      obtain ⟨halloc, -, rfl⟩ := hl
      exact KindsFrom.link (m := m.issue) h halloc hnext
    | sweep hp =>
      intro b hb
      rw [Dentry.isDir, hl.2.inode b]
      exact h b hb
  | updateSize ino size =>
    cases he with
    | update ha =>
      obtain ⟨-, -, -, rfl⟩ := hl
      exact h.set rfl

/-- What lasts of the dentries of `m₀`. -/
theorem kinds_requests (hst : st.Delimited) {allowed : Request → World σ → Prop} (h : Requests opt st allowed s s')
    (hs : CacheInv s) : CacheInv s' ∧ Grow s.cache s'.cache ∧ KindsFrom s.cache s'.cache := by
  have hkept := h.keeps hs ⟨Nat.le_refl _, fun _ _ => rfl⟩
    (K := fun m => s.cache.heapNext ≤ m.heapNext ∧ KindsFrom s.cache m)
    fun s₁ r _ _ _ e m m' hm _ hk he hl => ⟨Nat.le_trans hk.1 (hl.keeps hm).2.next, kindsFrom_edit hst hk.1 hk.2 he hl⟩
  exact ⟨hkept.1, hkept.2.1, hkept.2.2.2⟩

/-- The names that requests name are single components. -/
def PlainEntry (r : Request) (_ : World σ) : Prop := ∀ pino n, r.entry = some (pino, n) → n ≠ [] ∧ '/' ∉ n

theorem plain_requests (hst : st.Delimited) (h : Requests opt st PlainEntry s s') (hs : CacheInv s)
    (hplain : PlainNames s.cache) : PlainNames s'.cache := by
  refine (h.keeps hs hplain fun s₁ r _ hr _ e m m' hm _ hk he hl => ?_).2.2
  refine hk.edit hm hl fun p n inode hlink => ?_
  subst hlink
  rcases Request.link_name he with ⟨pino, hentry⟩ | ⟨ino, rfl, -, node, rfl, hnode⟩
  · exact (hr pino n hentry).2
  · exact plain_listedNode hst hnode

end MetaImpl

end Catfs
