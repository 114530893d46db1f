import Catfs.StorS3
import Catfs.LogBucket
import Catfs.Theorems.Edits

/-! # The type bits of the inodes

A new inode gets the type of a directory or of a file, whoever makes it. Only the revalidation of an expired dentry sets
the mode again: to one with the type of a directory, or to one without a type. -/

namespace Catfs

open Lib MetaM LocalMemMeta

/-- The bits `S_IFMT` of a mode. -/
def fileType (mode : Mode) : Mode := mode &&& S_IFMT

/-- A mode has the type of a directory or of a file. -/
def HasType (mode : Mode) : Prop := fileType mode = S_IFDIR ∨ fileType mode = S_IFREG

section
variable {mode perm : Mode}

theorem fileType_and : fileType (mode &&& perm) = fileType mode &&& perm := by
  unfold fileType
  rw [BitVec.and_assoc, BitVec.and_comm perm, ← BitVec.and_assoc]

theorem fileType_or : fileType (mode ||| perm) = fileType mode ||| fileType perm := BitVec.and_or_distrib_right

/-- The permission bits are no type bits. -/
theorem fileType_perm : fileType (mode &&& 0o777#32) = 0#32 := by
  have hzero : S_IFMT &&& 0o777#32 = 0#32 := by decide
  rw [fileType_and, fileType, BitVec.and_assoc, hzero, BitVec.and_zero]

theorem fileType_withPerm : fileType (withPerm mode perm) = fileType mode := by
  have hkept : S_IFMT &&& ~~~0o777#32 = S_IFMT := by decide
  rw [withPerm, fileType_or, fileType_perm, fileType_and, BitVec.or_zero, fileType, BitVec.and_assoc, hkept]

/-- The test of `is_dir` looks at one bit of the type. -/
theorem and_dir : mode &&& S_IFDIR = fileType mode &&& S_IFDIR := by
  have hdir : S_IFMT &&& S_IFDIR = S_IFDIR := by decide
  rw [fileType, BitVec.and_assoc, hdir]

theorem HasType.of_dir (h : HasType mode) (hdir : (mode &&& S_IFDIR != 0) = true) : fileType mode = S_IFDIR := by
  rcases h with h | h
  · exact h
  · rw [and_dir, h] at hdir
    cases (show (S_IFREG &&& S_IFDIR != 0) = false by decide).symm.trans hdir

end

namespace LocalMemMeta
variable {m m₀ m' : LocalMemMeta} {a p : Addr} {n : Str} {f : Dentry → Dentry}

/-- Every inode has a type, and those of `m₀` have the type that they had there. -/
structure TypesFrom (m₀ m : LocalMemMeta) : Prop where
  typed : ∀ a, a < m.heapNext → HasType (m.heap a).inode.mode
  same : ∀ a, a < m₀.heapNext → fileType (m.heap a).inode.mode = fileType (m₀.heap a).inode.mode

theorem TypesFrom.of_mode (h : TypesFrom m₀ m) (hnext : m'.heapNext = m.heapNext)
    (hmode : ∀ b, fileType (m'.heap b).inode.mode = fileType (m.heap b).inode.mode) : TypesFrom m₀ m' where
  typed b hb := by
    rw [HasType, hmode b]
    exact h.typed b (hnext ▸ hb)
  same b hb := (hmode b).trans (h.same b hb)

theorem TypesFrom.set (h : TypesFrom m₀ m) (hf : fileType (f (m.heap a)).inode.mode = fileType (m.heap a).inode.mode) :
    TypesFrom m₀ (m.set a f) := by
  refine h.of_mode heapNext_set fun b => ?_
  by_cases hb : b = a
  · rw [hb, heap_set_self, hf]
  · rw [heap_set_ne hb]

theorem TypesFrom.link {inode : Inode} (h : TypesFrom m₀ m) (hp : p < m.heapNext) (hnext : m₀.heapNext ≤ m.heapNext)
    (hi : HasType inode.mode) : TypesFrom m₀ (m.link p n inode) := by
  have hold : ∀ b, b < m.heapNext → ((m.link p n inode).heap b).inode = (m.heap b).inode := by
    intro b hb
    by_cases hbp : b = p
    · rw [hbp, heap_link_parent hp]
    · rw [heap_link_other hb hbp]
  constructor
  · intro b hb
    rcases Nat.lt_succ_iff_lt_or_eq.mp hb with hb | rfl
    · rw [hold b hb]
      exact h.typed b hb
    · rw [heap_link_new n inode hp]
      exact hi
  · intro b hb
    rw [hold b (Nat.lt_of_lt_of_le hb hnext)]
    exact h.same b hb

theorem hasType_objInode {now : Timespec} {obj : ObjInfo} {isDir : Bool} : HasType (m.objInode now obj isDir).mode := by
  have hbase : HasType (if isDir then S_IFDIR ||| 0o766#32 else S_IFREG ||| 0o644#32) := by
    cases isDir
    · exact .inr (by decide)
    · exact .inl (by decide)
  unfold objInode
  cases obj.mode with
  | none => exact hbase
  | some perm =>
    show HasType (withPerm _ perm)
    rw [HasType, fileType_withPerm]
    exact hbase

end LocalMemMeta

namespace MetaImpl
variable {σ : Type} {opt : MetaOpt} {st : Stor σ} {s s' : World σ}

/-- A new entry is to be a directory or a file. -/
def Request.Typed : Request → Prop
  | .create _ _ mode => HasType mode
  | _ => True

/-- When the looked up dentry is expired and `HEAD` answers for it, it is a directory, and the answer carries no mode. -/
def KeepsMode (st : Stor σ) (s : World σ) (pino : InodeID) (name : Str) : Prop :=
  ∀ p a resp t, s.cache.lookup pino = some p → (s.cache.heap p).getChild name = some a →
    (s.cache.heap a).isExpired s.now = true →
    st.headFile { objKey := s.cache.ownKey a } (.uninit s.garbage) s.stor = .ok resp t →
    (s.cache.heap a).isDir = true ∧ (resp.exist = true → resp.obj.mode = none)

def KeepsTypes (st : Stor σ) (r : Request) (s : World σ) : Prop :=
  r.Typed ∧ ∀ pino name, r.entry = some (pino, name) → KeepsMode st s pino name

theorem typesFrom_lookupEdit {m₀ m m' : LocalMemMeta} {pino : InodeID} {name : Str} {e : Edit} (hkeeps : KeepsMode st s pino name)
    (hm : m.Inv) (hnext : m₀.heapNext ≤ m.heapNext) (h : TypesFrom m₀ m) (he : LookupEdit opt st s pino name e m) (hl : e.Leads m m') :
    TypesFrom m₀ m' := by
  cases he with
  | touch hp ha =>
    obtain ⟨-, -, -, rfl⟩ := hl
    exact h.set rfl
  | @update p a resp t hp ha hexpired hhead hfound =>
    obtain ⟨-, -, -, rfl⟩ := hl
    obtain ⟨hdir, hmode⟩ := hkeeps p a resp t hp ha hexpired hhead
    have hexist : resp.exist = true := by simpa [hdir] using hfound
    have htype := (h.typed a (hm.child p _ a (hm.indexed _ _ hp).1 ha).2.1).of_dir hdir
    refine h.set ?_
    rw [htype]
    show fileType (headMode resp.obj (s.cache.heap a).isDir) = S_IFDIR
    rw [headMode, hmode hexist, hdir]
    decide
  | object hp hnone obj isDir =>
    obtain ⟨halloc, -, rfl⟩ := hl
    exact TypesFrom.link (m := s.cache.issue) ⟨h.typed, h.same⟩ halloc hnext hasType_objInode
  | @«virtual» p hp hnone =>
    obtain ⟨halloc, -, rfl⟩ := hl
    exact TypesFrom.link (m := s.cache.issue) ⟨h.typed, h.same⟩ halloc hnext (h.typed p halloc)

theorem typesFrom_loadEdit {m₀ m m' : LocalMemMeta} {ino : InodeID} {e : Edit} (hnext : m₀.heapNext ≤ m.heapNext)
    (h : TypesFrom m₀ m) (he : LoadEdit st s ino e m) (hl : e.Leads m m') : TypesFrom m₀ m' := by
  cases he with
  | mark hp =>
    obtain ⟨-, -, -, rfl⟩ := hl
    exact h.set rfl
  | update hp hnode hc =>
    obtain ⟨-, -, -, rfl⟩ := hl
    exact h.set rfl
  | entry hp hstale hnode hnone =>
    obtain ⟨halloc, -, rfl⟩ := hl
    exact TypesFrom.link (m := m.issue) ⟨h.typed, h.same⟩ halloc hnext hasType_objInode
  | marked hp hc =>
    obtain ⟨-, -, -, rfl⟩ := hl
    exact h.set rfl
  | sweep hp => exact h.of_mode hl.2.next fun b => by rw [hl.2.inode b]

theorem typesFrom_edit {m₀ m m' : LocalMemMeta} {r : Request} {e : Edit} (hr : KeepsTypes st r s) (hm : m.Inv)
    (hnext : m₀.heapNext ≤ m.heapNext) (h : TypesFrom m₀ m) (he : r.Edits opt st s e m) (hl : e.Leads m m') :
    TypesFrom m₀ m' := by
  cases r with
  | find pino name => exact typesFrom_lookupEdit (hr.2 pino name rfl) hm hnext h he hl
  | create pino name mode =>
    cases he with
    | lookup he => exact typesFrom_lookupEdit (hr.2 pino name rfl) hm hnext h he hl
    | entry hp hnone =>
      obtain ⟨halloc, -, rfl⟩ := hl
      exact TypesFrom.link (m := s.cache.issue) ⟨h.typed, h.same⟩ halloc hnext hr.1
  | remove pino name =>
    cases he with
    | lookup he => exact typesFrom_lookupEdit (hr.2 pino name rfl) hm hnext h he hl
    | entry hp =>
      obtain rfl := hl
      exact h.set rfl
  | load ino => exact typesFrom_loadEdit hnext h he hl
  | updateSize ino size =>
    cases he with
    | update ha =>
      obtain ⟨-, -, -, rfl⟩ := hl
      exact h.set rfl

theorem typesFrom_requests {m₀ : LocalMemMeta} (h : Requests opt st (KeepsTypes st) s s') (hs : CacheInv s)
    (hnext : m₀.heapNext ≤ s.cache.heapNext) (hK : TypesFrom m₀ s.cache) :
    CacheInv s' ∧ Grow s.cache s'.cache ∧ TypesFrom m₀ s'.cache := by
  have hkept := h.keeps hs ⟨hnext, hK⟩ (K := fun m => m₀.heapNext ≤ m.heapNext ∧ TypesFrom m₀ m)
    fun s₁ r _ hr _ e m m' hm _ hk he hl =>
      ⟨Nat.le_trans hk.1 (hl.keeps hm).2.next, typesFrom_edit hr hm hk.1 hk.2 he hl⟩
  exact ⟨hkept.1, hkept.2.1, hkept.2.2.2⟩

/-- An answer of `HEAD` keeps the mode, and there is none to begin with. -/
theorem mode_headFile {c : S3Client σ} {req : HeadFileReq} {resp resp' : HeadFileResp} {t t' : σ} (hnone : resp.obj.mode = none)
    (h : (s3Stor c).headFile req resp t = .ok resp' t') : resp'.obj.mode = none := by
  simp only [s3Stor] at h
  split at h
  · cases h
    rfl
  · cases h
    exact hnone
  · cases h

/-- In a run from a new mount in which every revalidation is one of a directory and carries no mode, every inode is that of
    a directory or of a file, and no inode's type bits change. -/
theorem types_never_change {start now : Timespec} {t : σ} {garbage : Garbage}
    (h : Requests opt st (KeepsTypes st) ⟨.new opt start, t, now, garbage⟩ s) (h' : Requests opt st (KeepsTypes st) s s') :
    (∀ a, Attached s'.cache a → HasType (s'.cache.heap a).inode.mode) ∧
      ∀ a, Attached s.cache a → fileType (s'.cache.heap a).inode.mode = fileType (s.cache.heap a).inode.mode := by
  have hnew : TypesFrom (.new opt start) (.new opt start) := by
    refine ⟨fun a ha => ?_, fun _ _ => rfl⟩
    rw [Nat.lt_one_iff.mp ha]
    exact .inl (show fileType (S_IFDIR ||| 0o766#32) = S_IFDIR by decide)
  obtain ⟨hinv, -, htypes⟩ := typesFrom_requests h (Inv.new opt start) (Nat.le_refl _) hnew
  obtain ⟨hinv', -, htypes'⟩ := typesFrom_requests h' hinv (Nat.le_refl _) ⟨htypes.typed, fun _ _ => rfl⟩
  exact ⟨fun a ha => htypes'.typed a (ha.allocated hinv'), fun a ha => htypes'.same a (ha.allocated hinv)⟩

/-- After the creation of an entry with the mode over an empty bucket. -/
def created (mode : Mode) : World Log :=
  endState (((Request.create ROOT_INODE_ID ['x'] mode).prog ⟨0, 0, 60⟩ (s3Stor Log.client) 1).run (newWorld ([] : Log)))

/-- And after a lookup of that entry, which has expired. -/
def lookedLater (mode : Mode) : World Log :=
  endState (((Request.find ROOT_INODE_ID ['x']).prog ⟨0, 0, 60⟩ (s3Stor Log.client) 1).run
    { created mode with now := ⟨100, 0⟩ })

theorem keepsTypes_create {mode : Mode} (h : HasType mode) :
    KeepsTypes (s3Stor Log.client) (.create ROOT_INODE_ID ['x'] mode) (newWorld ([] : Log)) := by
  refine ⟨h, fun pino name hentry p a resp t hp ha => ?_⟩
  obtain rfl : p = 0 := Nat.lt_one_iff.mp ((Inv.new _ _).indexed _ _ hp).1
  cases ha

theorem requests_lookedLater {allowed : Request → World Log → Prop} {mode : Mode}
    (h : allowed (.find ROOT_INODE_ID ['x']) { created mode with now := ⟨100, 0⟩ }) :
    Requests ⟨0, 0, 60⟩ (s3Stor Log.client) allowed (created mode) (lookedLater mode) :=
  .request (.outside .start (created mode).stor ⟨100, 0⟩ (created mode).garbage) 1 (.find ROOT_INODE_ID ['x']) h

theorem types_never_change_dir :
    (∀ a, Attached (lookedLater S_IFDIR).cache a → HasType ((lookedLater S_IFDIR).cache.heap a).inode.mode) ∧
      ∀ a, Attached (created S_IFDIR).cache a → fileType ((lookedLater S_IFDIR).cache.heap a).inode.mode =
        fileType ((created S_IFDIR).cache.heap a).inode.mode := by
  have hcreated : Requests ⟨0, 0, 60⟩ (s3Stor Log.client) (KeepsTypes (s3Stor Log.client)) (newWorld ([] : Log)) (created S_IFDIR) :=
    .request .start 1 _ (keepsTypes_create (.inl (by decide)))
  refine types_never_change hcreated (requests_lookedLater ⟨trivial, ?_⟩)
  rintro pino name hentry p a resp t hp ha - hhead
  obtain ⟨rfl, rfl⟩ := Prod.mk.inj (Option.some.inj hentry)
  have hroot : (created S_IFDIR).cache.lookup ROOT_INODE_ID = some 0 := by decide +kernel
  obtain rfl : 0 = p := Option.some.inj (hroot.symm.trans hp)
  have hchild : ((created S_IFDIR).cache.heap 0).getChild ['x'] = some 1 := by decide +kernel
  obtain rfl : 1 = a := Option.some.inj (hchild.symm.trans ha)
  have hdir : ((created S_IFDIR).cache.heap 1).isDir = true := by decide +kernel
  exact ⟨hdir, fun _ => mode_headFile rfl hhead⟩

/-- A file that is looked up after its entry has expired loses its type. -/
theorem type_lost : ∃ s s' : World Log,
    Requests ⟨0, 0, 60⟩ (s3Stor Log.client) (fun r _ => r.Typed) (newWorld ([] : Log)) s ∧
    Requests ⟨0, 0, 60⟩ (s3Stor Log.client) (fun r _ => r.Typed) s s' ∧
    Attached s.cache 1 ∧ Attached s'.cache 1 ∧
    fileType (s.cache.heap 1).inode.mode = S_IFREG ∧ fileType (s'.cache.heap 1).inode.mode = 0 ∧
    ¬ HasType (s'.cache.heap 1).inode.mode := by
  have hchild : ((created S_IFREG).cache.heap (created S_IFREG).cache.rootDentry).getChild ['x'] = some 1 := by decide +kernel
  have hchild' : ((lookedLater S_IFREG).cache.heap (lookedLater S_IFREG).cache.rootDentry).getChild ['x'] = some 1 := by
    decide +kernel
  have hlost : fileType ((lookedLater S_IFREG).cache.heap 1).inode.mode = 0 := by decide +kernel
  refine ⟨created S_IFREG, lookedLater S_IFREG, .request .start 1 _ (.inr (by decide)),
    requests_lookedLater trivial, .child .root hchild, .child .root hchild',
    by decide +kernel, hlost, ?_⟩
  rw [HasType, hlost]
  decide

end MetaImpl

end Catfs
