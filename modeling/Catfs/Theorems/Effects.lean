import Catfs.Lib.Moves
import Catfs.Theorems.Build
import Catfs.Theorems.Listing
import Catfs.Theorems.Quiet
import Catfs.Theorems.Sweep

/-! # What one step does to the cache

`Changes` says it for each label. An invariant that every such change keeps holds in every state that requests lead
to, in whatever order they take their steps. -/

namespace Catfs

open Lib MetaM LocalMemMeta
open EStateM (Result)

namespace MetaImpl
variable {σ α : Type} {m m' : LocalMemMeta} {now : Timespec} {l : MetaAct}

/-- A step with the label `l` leads from `m` to `m'` at the time `now`. -/
def Changes (l : MetaAct) (now : Timespec) (m m' : LocalMemMeta) : Prop :=
  match l with
  | .insert pino name =>
    (∃ p inode, m.lookup pino = some p ∧ inode.ino = m.nextInodeId ∧ m' = m.issue.link p name inode) ∨
      m.lookup pino = none ∧ (m' = m ∨ m' = m.issue)
  | .erase pino name =>
    (∃ p, m.lookup pino = some p ∧ m' = m.set p fun d => { d with children := d.children.erase name }) ∨
      m.lookup pino = none ∧ m' = m
  | .touch a => ∃ timeout, a < m.heapNext ∧ m' = m.set a (·.incTtl now timeout)
  | .update ino u => (∃ a, m.lookup ino = some a ∧ m' = m.set a (InodeUpdateAttr.apply u)) ∨ m.lookup ino = none ∧ m' = m
  | .build ino _ => (∃ a nodes, m.lookup ino = some a ∧ Built a nodes m m') ∨ m.lookup ino = none ∧ m' = m
  | .sweep a => a < m.heapNext ∧ Swept a m m' ∧ (m'.heap a).ttl = sweepTtl now m
  | .find .. | .read _ | .check _ | .getDentry _ | .head _ | .list .. | .put _ | .delete _ => m' = m

theorem Changes.keeps (hm : Inv m) (h : Changes l now m m') : Inv m' ∧ Grow m m' := by
  have hsame : m' = m → Inv m' ∧ Grow m m' := by
    rintro rfl
    exact ⟨hm, .refl _⟩
  cases l with
  | insert pino name =>
    rcases h with ⟨p, inode, hp, hi, rfl⟩ | ⟨-, h | rfl⟩
    · have halloc := (hm.indexed _ _ hp).1
      have hfresh : Fresh m.issue inode.ino := hi ▸ hm.fresh
      exact ⟨hm.issue.link halloc hfresh, Grow.issue.trans (.link hm.issue halloc hfresh)⟩
    · exact hsame h
    · exact ⟨hm.issue, .issue⟩
  | erase pino name =>
    rcases h with ⟨p, -, rfl⟩ | ⟨-, h⟩
    · exact ⟨hm.set Mild.erase, .set Mild.erase⟩
    · exact hsame h
  | touch a =>
    obtain ⟨t, -, rfl⟩ := h
    exact ⟨hm.set Mild.incTtl, .set Mild.incTtl⟩
  | update ino u =>
    rcases h with ⟨a, -, rfl⟩ | ⟨-, h⟩
    · exact ⟨hm.set Mild.apply, .set Mild.apply⟩
    · exact hsame h
  | build ino names =>
    rcases h with ⟨a, nodes, -, hb⟩ | ⟨-, h⟩
    · exact ⟨hb.inv, hb.grow⟩
    · exact hsame h
  | sweep a => exact ⟨h.2.1.inv, h.2.1.grow⟩
  | _ => exact hsame h

/-- Any step may also change the store. -/
def Effect (l : MetaAct) (s s' : World σ) : Prop := Changes l s.now s.cache s'.cache ∧ s'.now = s.now

/-- The programs whose steps have labels in `A` and the effects of these. -/
abbrev Acts (A : MetaAct → Prop) (P : LocalMemMeta → Prop) (p : MetaM σ α) (Q : α → LocalMemMeta → Prop) : Prop :=
  p.Moves CacheGrow (fun l s s' => A l ∧ Effect l s s') CacheInv (fun s => P s.cache) fun r s => Q r s.cache

/-- What is kept as the cache grows. -/
def Lasting (P : LocalMemMeta → Prop) : Prop := ∀ m m', Grow m m' → P m → P m'

theorem lasting_true : Lasting fun _ => True := fun _ _ _ _ => trivial

theorem lasting_alloc {a : Addr} : Lasting (a < ·.heapNext) := fun _ _ h ha => Nat.lt_of_lt_of_le ha h.next

theorem lasting_found {r : Option Addr} : Lasting fun m => ∀ a, r = some a → a < m.heapNext :=
  fun _ _ h hr a ha => Nat.lt_of_lt_of_le (hr a ha) h.next

variable {A : MetaAct → Prop} {P : LocalMemMeta → Prop} {Q : α → LocalMemMeta → Prop} {opt : MetaOpt} {st : Stor σ} {a : Addr}
  {pino ino : InodeID} {name : Str}

/-! ### The steps -/

theorem acts_cache {f : Timespec → LocalM α} (hl : A l) (hQ : ∀ r, Lasting (Q r))
    (h : ∀ now (m : LocalMemMeta), m.Inv → P m → Changes l now m (endState (f now m)) ∧ ∀ r m', f now m = .ok r m' → Q r m') :
    Acts A P (cache l f : MetaM σ α) Q := by
  refine Prog.moves_lift (fun r s s' hg => hQ r s.cache s'.cache hg) fun s hs hP => ?_
  obtain ⟨hc, hr⟩ := h s.now s.cache hs hP
  simp only [onCache, zoom]
  cases hf : f s.now s.cache with
  | ok r m' =>
    rw [hf] at hc
    refine ⟨⟨hl, hc, rfl⟩, fun r' s' hok => ?_⟩
    obtain ⟨rfl, rfl⟩ := Result.ok.inj hok
    exact hr _ m' hf
  | error e m' =>
    rw [hf] at hc
    exact ⟨⟨hl, hc, rfl⟩, fun r' s' hok => by cases hok⟩

/-- A step that only looks at the cache. -/
def looks (l : MetaAct) : Bool :=
  match l with
  | .find .. | .read _ | .check _ | .getDentry _ | .head _ | .list .. | .put _ | .delete _ => true
  | _ => false

theorem changes_same (hl : looks l = true) : Changes l now m m := by
  cases l <;> first | rfl | cases hl

/-- Programs that only look at the cache. -/
abbrev Looks (p : MetaM σ α) : Prop :=
  p.Preserves (fun l => looks l = true) CacheInv fun s s' => s'.cache = s.cache ∧ s'.now = s.now

theorem acts_looks (hA : ∀ l, looks l = true → A l) (hP : Lasting P) {p : MetaM σ α} (hp : Looks p) :
    Acts A P p fun _ => P := by
  refine Prog.moves_of_preserves hp (fun l s s' hl _ hs => ?_) fun s s' hg => hP s.cache s'.cache hg
  refine ⟨⟨hA l hl, ?_, hs.2⟩, ?_⟩
  · rw [hs.1]
    exact changes_same hl
  · rw [CacheGrow, hs.1]
    exact .refl _

/-- The operation leaves the cache as it is. -/
def ReadOnly (f : LocalM α) : Prop := ∀ m, endState (f m) = m

theorem readOnly_bind {β : Type} {f : LocalM α} {g : α → LocalM β} (hf : ReadOnly f) (hg : ∀ x, ReadOnly (g x)) :
    ReadOnly (f >>= g) := by
  intro m
  have hm := hf m
  cases hr : f m with
  | ok x m' =>
    rw [hr] at hm
    obtain rfl : m' = m := hm
    rw [bind_ok hr]
    exact hg x m'
  | error e m' =>
    rw [hr] at hm
    rw [bind_error hr]
    exact hm

theorem readOnly_getFullPath : ReadOnly (getFullPath a) := by
  refine readOnly_bind (fun _ => rfl) fun m => ?_
  split <;> exact fun _ => rfl

theorem readOnly_getFullPathWithSlash : ReadOnly (getFullPathWithSlash a) := by
  refine readOnly_bind (fun _ => rfl) fun d => ?_
  split
  · exact fun _ => rfl
  · exact readOnly_bind readOnly_getFullPath fun _ _ => rfl

theorem readOnly_findDentry : ReadOnly (LocalMemMeta.findDentry pino name) := by
  have hparent : ReadOnly (getParent pino) := by
    intro m
    rw [run_getParent]
    split <;> rfl
  exact readOnly_bind hparent fun _ => readOnly_bind (fun _ => rfl) fun _ _ => rfl

theorem looks_cache {f : Timespec → LocalM α} (hl : looks l = true) (hf : ∀ now, ReadOnly (f now)) :
    Looks (cache l f : MetaM σ α) := by
  refine Prog.preserves_lift hl fun s hs _ => ?_
  have := hf s.now s.cache
  simp only [onCache, zoom]
  cases hr : f s.now s.cache with
  | ok r m' =>
    rw [hr] at this
    obtain rfl : m' = s.cache := this
    exact ⟨hs, ⟨rfl, rfl⟩, trivial⟩
  | error e m' =>
    rw [hr] at this
    obtain rfl : m' = s.cache := this
    exact ⟨hs, rfl, rfl⟩

theorem looks_call {f : EStateM Err σ α} (hl : looks l = true) : Looks (call l f) := by
  refine Prog.preserves_lift hl fun s hs _ => ?_
  simp only [zoom]
  cases f s.stor
  · exact ⟨hs, ⟨rfl, rfl⟩, trivial⟩
  · exact ⟨hs, rfl, rfl⟩

theorem looks_lift {f : World σ → α} (hl : looks l = true) : Looks (Prog.lift l (do return f (← get)) : MetaM σ α) :=
  Prog.preserves_lift hl fun _ hs _ => ⟨hs, ⟨rfl, rfl⟩, trivial⟩

theorem looks_readDentry : Looks (readDentry a : MetaM σ _) := looks_cache rfl fun _ _ => rfl

theorem looks_pathWithSlash : Looks (pathWithSlash a : MetaM σ _) := looks_cache rfl fun _ => readOnly_getFullPathWithSlash

theorem looks_fullPath : Looks (fullPath a : MetaM σ _) := looks_cache rfl fun _ => readOnly_getFullPath

theorem looks_getDentry : Looks (getDentry ino : MetaM σ _) := looks_cache rfl fun _ _ => rfl

theorem looks_headKey {isDir : Bool} : Looks (headKey a isDir : MetaM σ _) := .ite looks_pathWithSlash looks_fullPath

theorem looks_getRemoteObj : Looks (getRemoteObj st a name) :=
  looks_pathWithSlash.bind fun _ => (looks_lift rfl).bind fun _ => (looks_call rfl).bind fun _ =>
    .ite trivial ((looks_call rfl).bind fun _ => trivial)

theorem looks_isRemoteDirExist {path : Str} : Looks (isRemoteDirExist st path) := (looks_call rfl).bind fun _ => trivial

theorem looks_fileKey {isRoot : Bool} : Looks (fileKey a isRoot name : MetaM σ _) :=
  .ite trivial (looks_fullPath.bind fun _ => trivial)

theorem looks_newKey {mode : Mode} : Looks (newKey a name mode : MetaM σ _) :=
  looks_readDentry.bind fun _ => looks_fileKey.bind fun _ => trivial

theorem looks_deref {d : Option Addr} : Looks (deref d : MetaM σ _) := by
  cases d <;> trivial

theorem looks_listChildren : Looks (listChildren a : MetaM σ _) :=
  (looks_cache rfl fun _ _ => rfl).bind fun _ => trivial

/-! ### Lookups and new entries -/

/-- The labels of the steps that never take a child away. -/
def widens (l : MetaAct) : Bool :=
  match l with
  | .erase .. | .build .. | .sweep _ => false
  | _ => true

theorem widens_of_looks (h : looks l = true) : widens l = true := by
  cases l <;> first | rfl | cases h

section
variable (hA : ∀ l, widens l = true → A l)
include hA

theorem acts_incTtl : Acts A (a < ·.heapNext) (incTtl opt a : MetaM σ _) fun _ => (a < ·.heapNext) :=
  acts_cache (hA _ rfl) (fun _ => lasting_alloc) fun now m _ ha => ⟨⟨_, ha, rfl⟩, fun _ _ hr => by cases hr; exact ha⟩

theorem acts_updateInode {u : InodeUpdateAttr} (hP : Lasting P) : Acts A P (updateInode ino u : MetaM σ _) fun _ => P := by
  refine acts_cache (hA _ rfl) (fun _ => hP) fun now m hm hp => ?_
  cases ha : m.lookup ino with
  | some a =>
    rw [run_updateInode ha]
    exact ⟨.inl ⟨a, ha, rfl⟩, fun _ _ hr => by cases hr; exact hP _ _ (.set Mild.apply) hp⟩
  | none =>
    rw [run_updateInode_none ha]
    exact ⟨.inr ⟨ha, rfl⟩, fun _ _ hr => by cases hr⟩

theorem acts_insert {f : Timespec → LocalM Addr} (hf : MakesChild pino name f) :
    Acts A (fun _ => True) (cache (.insert pino name) f : MetaM σ _) fun ch => (ch < ·.heapNext) := by
  refine acts_cache (hA _ rfl) (fun _ => lasting_alloc) fun now m hm _ => ?_
  rcases hf now m hm with ⟨p, inode, hp, hi, hrun⟩ | ⟨e, m', hnone, hrun, h⟩
  · rw [hrun]
    exact ⟨.inl ⟨p, inode, hp, hi, rfl⟩, fun _ _ hr => by cases hr; exact Nat.lt_succ_self _⟩
  · rw [hrun]
    exact ⟨.inr ⟨hnone, h⟩, fun _ _ hr => by cases hr⟩

theorem acts_made {α : Type} {f : Timespec → LocalM Addr} (hf : MakesChild pino name f) (g : Addr → α) :
    Acts A (fun _ => True) (do
      let d ← cache (.insert pino name) f
      incTtl opt d
      pure (g d) : MetaM σ _) fun _ _ => True :=
  (acts_insert hA hf).bind fun _ => (acts_incTtl hA).bind fun _ => Prog.moves_pure fun _ _ => trivial

theorem acts_findRemote : Acts A (fun _ => True) (findRemote opt st pino name) fun _ _ => True := by
  have hlooks : ∀ l, looks l = true → A l := fun l hl => hA l (widens_of_looks hl)
  refine (acts_looks hlooks lasting_true looks_getDentry).bind fun parent => ?_
  cases parent with
  | none => trivial
  | some parent =>
    refine (acts_looks hlooks lasting_true looks_getRemoteObj).bind ?_
    rintro ⟨obj, exist, isDir⟩
    cases exist with
    | true => exact acts_made hA makes_fromObj some
    | false =>
      refine (acts_looks hlooks lasting_true looks_pathWithSlash).bind fun pre =>
        (acts_looks hlooks lasting_true looks_isRemoteDirExist).bind fun exist => ?_
      cases exist with
      | true =>
        refine Prog.Moves.map ?_
        exact (acts_looks hlooks lasting_true looks_readDentry).bind fun p => acts_made hA makes_new id
      | false => exact Prog.moves_pure fun _ _ => trivial

theorem acts_revalidate : Acts A (a < ·.heapNext) (revalidate opt st a) fun _ _ => True := by
  have hlooks : ∀ l, looks l = true → A l := fun l hl => hA l (widens_of_looks hl)
  refine (acts_looks hlooks lasting_alloc looks_readDentry).bind fun d =>
    (acts_looks hlooks lasting_alloc looks_headKey).bind fun path =>
    (acts_looks hlooks lasting_alloc (looks_lift rfl)).bind fun resp =>
    (acts_looks hlooks lasting_alloc (looks_call rfl)).bind fun resp => .ite ?_ ?_
  · exact (acts_incTtl hA).bind fun _ => Prog.moves_pure fun _ _ => trivial
  · exact (acts_updateInode hA lasting_alloc).bind fun _ => (acts_incTtl hA).bind fun _ => Prog.moves_pure fun _ _ => trivial

theorem acts_findDentry {onlyLocal : Bool} :
    Acts A (fun _ => True) (findDentry opt st pino name onlyLocal) fun _ _ => True := by
  have hlooks : ∀ l, looks l = true → A l := fun l hl => hA l (widens_of_looks hl)
  have hfind : Acts A (fun _ => True) (cache (.find pino name) fun _ => LocalMemMeta.findDentry pino name : MetaM σ _)
      fun r m => ∀ a, r = some a → a < m.heapNext := by
    refine acts_cache (hA _ rfl) (fun _ => lasting_found) fun now m hm _ => ⟨readOnly_findDentry m, fun r m' hr a ha => ?_⟩
    cases hp : m.lookup pino with
    | none =>
      rw [run_findDentry_none hp] at hr
      cases hr
    | some p =>
      rw [run_findDentry hp] at hr
      obtain ⟨rfl, rfl⟩ := Result.ok.inj hr
      exact (hm.child p name a (hm.indexed _ _ hp).1 ha).2.1
  refine hfind.bind fun d => ?_
  cases d with
  | none => exact .ite (Prog.moves_pure fun _ _ => trivial) ((acts_findRemote hA).pre fun _ _ => trivial)
  | some a =>
    have hrest : Acts A (a < ·.heapNext) (do
        let expired ← isExpired a
        if expired = true then revalidate opt st a else pure (some a)) fun _ _ => True :=
      (acts_looks hlooks lasting_alloc (looks_lift rfl)).bind fun _ =>
        .ite (acts_revalidate hA) (Prog.moves_pure fun _ _ => trivial)
    exact hrest.pre fun s hs => hs a rfl

theorem acts_createDentry {mode : Mode} : Acts A (fun _ => True) (createDentry opt st pino name mode) fun _ _ => True := by
  have hlooks : ∀ l, looks l = true → A l := fun l hl => hA l (widens_of_looks hl)
  refine (acts_findDentry hA).bind fun d => ?_
  cases d with
  | some d => exact Prog.moves_pure fun _ _ => trivial
  | none =>
    refine (acts_looks hlooks lasting_true (looks_getDentry.bind fun _ => looks_deref)).bind fun parent =>
      (acts_looks hlooks lasting_true looks_newKey).bind fun key =>
      (acts_looks hlooks lasting_true looks_readDentry).bind fun p =>
      (acts_looks hlooks lasting_true (looks_call rfl)).bind fun _ => ?_
    exact (acts_insert hA makes_new).post fun _ _ _ => trivial

end

/-! ### All requests -/

section
variable (hA : ∀ l, A l)
include hA

theorem acts_erase : Acts A (fun _ => True) (cache (.erase pino name) fun _ => LocalMemMeta.removeDentry pino name : MetaM σ _)
    fun _ _ => True := by
  refine acts_cache (hA _) (fun _ => lasting_true) fun now m hm _ => ⟨?_, fun _ _ _ => trivial⟩
  cases hp : m.lookup pino with
  | some p =>
    rw [run_removeDentry hp]
    exact .inl ⟨p, hp, rfl⟩
  | none =>
    rw [run_removeDentry_none hp]
    exact .inr ⟨hp, rfl⟩

theorem acts_removeDentry : Acts A (fun _ => True) (removeDentry opt st pino name) fun _ _ => True := by
  have hlooks : ∀ l, looks l = true → A l := fun l _ => hA l
  refine (acts_findDentry fun l _ => hA l).bind fun d => ?_
  cases d with
  | none => exact Prog.moves_pure fun _ _ => trivial
  | some a =>
    refine (acts_looks hlooks lasting_true looks_fullPath).bind fun path =>
      (acts_looks hlooks lasting_true looks_readDentry).bind fun d => .ite (.ite trivial ?_) ?_
    · exact (acts_looks hlooks lasting_true (looks_call rfl)).bind fun _ => acts_erase hA
    · exact (acts_looks hlooks lasting_true (looks_call rfl)).bind fun _ => acts_erase hA

theorem acts_build {nodes : List FTreeNode} (hflat : ∀ node ∈ nodes, node.children = []) (hP : Lasting P) :
    Acts A P (cache (.build ino (nodes.map FTreeNode.name)) fun now => buildDentries now ino nodes : MetaM σ _) fun _ => P := by
  refine acts_cache (hA _) (fun _ => hP) fun now m hm hp => ?_
  cases ha : m.lookup ino with
  | some a =>
    obtain ⟨m', hrun, hb⟩ := run_buildDentries now hm ha hflat
    rw [hrun]
    exact ⟨.inl ⟨a, nodes, ha, hb⟩, fun _ _ hr => by cases hr; exact hP _ _ hb.grow hp⟩
  | none =>
    have hrun : buildDentries now ino nodes m = .error .nullDeref m := by
      rw [buildDentries, bind_ok run_getDentry, ha]
      rfl
    rw [hrun]
    exact ⟨.inr ⟨ha, rfl⟩, fun _ _ hr => by cases hr⟩

theorem acts_refreshLoop {pre : Str} (hP : Lasting P) (fuel : Nat) (marker : Str) :
    Acts A P (refreshLoop st ino pre fuel marker) fun _ => P := by
  induction fuel generalizing marker with
  | zero => trivial
  | succ fuel ih =>
    refine (acts_looks (fun l _ => hA l) hP (looks_call rfl)).bind fun resp => ?_
    cases hft : buildFtree pre resp with
    | none => trivial
    | some nodes =>
      exact (acts_build hA (flat_buildFtree hft) hP).bind fun _ => .ite (ih _) (Prog.moves_pure fun _ hs => hs)

theorem acts_sweep : Acts A (a < ·.heapNext) (cache (.sweep a) fun now => clearUnsyncDentry now a : MetaM σ _)
    fun _ _ => True := by
  refine acts_cache (hA _) (fun _ => lasting_true) fun now m hm ha => ?_
  obtain ⟨m', hrun, hs, httl⟩ := run_clearUnsyncDentry_ttl now hm ha
  rw [hrun]
  exact ⟨⟨ha, hs, httl⟩, fun _ _ _ => trivial⟩

theorem acts_loadSubDentries {fuel : Nat} : Acts A (fun _ => True) (loadSubDentries st fuel ino) fun _ _ => True := by
  have hlooks : ∀ l, looks l = true → A l := fun l _ => hA l
  have hdir : Acts A (fun _ => True) (getDentry ino : MetaM σ _) fun r m => ∀ a, r = some a → a < m.heapNext :=
    acts_cache (hA _) (fun _ => lasting_found) fun now m hm _ => ⟨rfl, fun r m' hr a ha => by
      cases hr
      exact (hm.indexed _ _ ha).1⟩
  refine hdir.bind fun d => ?_
  cases d with
  | none => trivial
  | some a =>
    have hlist : Acts A (fun _ => True) (listChildren a : MetaM σ _) fun _ _ => True :=
      acts_looks hlooks lasting_true looks_listChildren
    have hrest : Acts A (a < ·.heapNext) (do
        let stale ← needsRefresh a
        if stale = true then do
          refreshSubDentries st fuel a
          listChildren a
        else listChildren a) fun _ _ => True := by
      refine (acts_looks hlooks lasting_alloc (looks_lift rfl)).bind fun _ => .ite ?_ (hlist.pre fun _ _ => trivial)
      refine Prog.Moves.bind ?_ fun _ => hlist
      exact (acts_looks hlooks lasting_alloc looks_pathWithSlash).bind fun pre =>
        (acts_looks hlooks lasting_alloc looks_readDentry).bind fun d =>
        (acts_refreshLoop hA lasting_alloc _ _).bind fun _ => acts_sweep hA
    exact hrest.pre fun s hs => hs a rfl

/-- Every step of every request has the effect that its label allows. -/
theorem acts_request {fuel : Nat} (r : Request) : Acts A (fun _ => True) (r.prog opt st fuel) fun _ _ => True := by
  cases r with
  | find => exact Prog.Moves.map (acts_findDentry fun l _ => hA l)
  | create => exact Prog.Moves.map (acts_createDentry fun l _ => hA l)
  | remove => exact acts_removeDentry hA
  | load => exact Prog.Moves.map (acts_loadSubDentries hA)
  | updateSize => exact acts_updateInode (fun l _ => hA l) lasting_true

end

end MetaImpl

end Catfs
