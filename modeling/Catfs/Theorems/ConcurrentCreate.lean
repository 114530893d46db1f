import Catfs.Theorems.ConcurrentLoad

/-! # New entries while their directory is listed

Any number of `load_sub_dentries` and `create_dentry` calls on one directory, over any store. A dentry that a
create call found or made stays a child until a sweep finds it without a mark, or another dentry takes its name. -/

namespace Catfs

open Lib MetaM LocalMemMeta
open EStateM (Result)

namespace MetaImpl

variable {ι σ α : Type} {opt : MetaOpt} {st : Stor σ} {a : Addr} {ino : InodeID} {i : ι} {n name : Str} {ch : Addr}

/-- A call on a directory. -/
inductive DirCall where
  | load
  | create (name : Str) (mode : Mode)
  deriving DecidableEq, Repr

/-- The call on the directory `ino`, with the dentry that a create call returns. -/
def DirCall.prog (opt : MetaOpt) (st : Stor σ) (fuel : Nat) (ino : InodeID) : DirCall → MetaM σ (Option Addr)
  | .load => (fun _ => none) <$> loadSubDentries st fuel ino
  | .create name mode => some <$> createDentry opt st ino name mode

/-! ### What the record says of a call -/

/-- The entry of the directory `a` that a step of a create call found or made. -/
def entry (a : Addr) (l : MetaAct) (s : World σ) : Option (Str × Addr) :=
  match l with
  | .find _ name => ((s.cache.heap a).getChild name).map fun ch => (name, ch)
  | .insert _ name => some (name, s.cache.heapNext)
  | _ => none

/-- Some create call found or made the entry. -/
def Entered (a : Addr) (past : List (ι × MetaAct × World σ)) (name : Str) (ch : Addr) : Prop :=
  ∃ e ∈ past, entry a e.2.1 e.2.2 = some (name, ch)

/-- A sweep of `a` finds each such entry marked, and no dentry is made under the name of one. -/
def Undisturbed (a : Addr) (_ : ι) (l : MetaAct) (x : MetaConf ι σ) : Prop :=
  match l with
  | .sweep _ => ∀ e ∈ x.past, ∀ p ∈ entry a e.2.1 e.2.2, (x.state.cache.heap p.2).synced = true
  | .insert _ name => ∀ e ∈ x.past, ∀ p ∈ entry a e.2.1 e.2.2, p.1 ≠ name
  | _ => True

instance (i : ι) (l : MetaAct) (x : MetaConf ι σ) : Decidable (Undisturbed a i l x) :=
  match l with
  | .sweep _ => inferInstanceAs (Decidable (∀ e ∈ x.past, ∀ p ∈ entry a e.2.1 e.2.2, (x.state.cache.heap p.2).synced = true))
  | .insert _ name => inferInstanceAs (Decidable (∀ e ∈ x.past, ∀ p ∈ entry a e.2.1 e.2.2, ¬ p.1 = name))
  | .find .. | .read _ | .check _ | .getDentry _ | .head _ | .list .. | .put _ | .delete _ | .erase .. | .touch _
  | .update .. | .build .. => .isTrue trivial

section Record
variable {l : MetaAct} {x : MetaConf ι σ} {s : World σ}

theorem entered_after : Entered a (x.after i l s).past name ch ↔ Entered a x.past name ch ∨
    entry a l x.state = some (name, ch) := by
  simp [Entered, Conf.after, or_and_right, exists_or]

theorem entry_of_quiet (h : l.quiet = true) : entry a l s = none := by
  cases l <;> first | rfl | cases h

end Record

/-! ### What holds all the time -/

/-- Every entry that a create call found or made is a child of `a`, the directory `ino`. -/
structure Entries (a : Addr) (ino : InodeID) (x : MetaConf ι σ) : Prop where
  inv : Inv x.state.cache
  index : x.state.cache.lookup ino = some a
  entered : ∀ n ch, Entered a x.past n ch → (x.state.cache.heap a).getChild n = some ch

/-- What every call relies on. -/
structure EntriesRely (a : Addr) (ino : InodeID) (_ : ι) (x y : MetaConf ι σ) : Prop where
  entries : Entries a ino x → Entries a ino y
  entered : ∀ n ch, Entered a x.past n ch → Entered a y.past n ch

theorem stable_entries : Stable (EntriesRely a ino i) (Entries a ino : MetaConf ι σ → Prop) :=
  fun _ _ hr hx => hr.entries hx

theorem stable_entered : Stable (EntriesRely a ino i) fun x : MetaConf ι σ => Entered a x.past n ch :=
  fun _ _ hr hx => hr.entered n ch hx

theorem entered_later {l : MetaAct} {x : MetaConf ι σ} {s : World σ} (h : Entered a x.past n ch) :
    Entered a (x.after i l s).past n ch := entered_after.mpr (.inl h)

theorem Entries.guarantees {l : MetaAct} {x : MetaConf ι σ} {s : World σ} (h : Entries a ino (x.after i l s)) :
    Prog.Guarantees (EntriesRely a ino) i x (x.after i l s) := fun _ _ => ⟨fun _ => h, fun _ _ => entered_later⟩

/-- A step that keeps the children of `a`, after which the new entry is one of them. -/
theorem Entries.step {l : MetaAct} {x : MetaConf ι σ} {s : World σ} (hx : Entries a ino x) (hm : Inv s.cache)
    (hg : Grow x.state.cache s.cache)
    (hold : ∀ n ch, Entered a x.past n ch → (x.state.cache.heap a).getChild n = some ch → (s.cache.heap a).getChild n = some ch)
    (hnew : ∀ n ch, entry a l x.state = some (n, ch) → (s.cache.heap a).getChild n = some ch) :
    Entries a ino (x.after i l s) where
  inv := hm
  index := hg.index _ _ hx.index
  entered n ch h := by
    rcases entered_after.mp h with h | h
    · exact hold n ch h (hx.entered n ch h)
    · exact hnew n ch h

/-! ### The steps -/

/-- Where the guard lets a dentry be made, no call has entered its name. -/
def Sparing (a : Addr) (ino : InodeID) (guard : ι → MetaAct → MetaConf ι σ → Prop) : Prop :=
  ∀ i pino name x, Entries a ino x → guard i (.insert pino name) x → ∀ ch, ¬ Entered a x.past name ch

theorem sparing_undisturbed : Sparing a ino (Undisturbed a : ι → MetaAct → MetaConf ι σ → Prop) := by
  rintro i pino name x - hg ch ⟨e, hmem, hentry⟩
  exact hg e hmem _ hentry rfl

section
variable {guard : ι → MetaAct → MetaConf ι σ → Prop}

/-- A program that leaves the tree alone. -/
theorem sat_quiet {p : MetaM σ α} (hp : Quiet (fun _ => ()) p) :
    p.Sat guard (EntriesRely a ino) i (Entries a ino) fun _ => Entries a ino := by
  refine Prog.sat_of_preserves hp (fun _ hx => hx.inv) stable_entries fun x l s hx hl hm hr => ?_
  have hsame : (s.cache.heap a).getChild = (x.state.cache.heap a).getChild := by
    funext n
    rw [Dentry.getChild, hr.cache.children a, Dentry.getChild]
  have hstep : Entries a ino (x.after i l s) := by
    refine hx.step hm hr.cache.grow (fun n ch _ h => hsame ▸ h) fun n ch h => ?_
    rw [entry_of_quiet hl] at h
    cases h
  exact ⟨hstep, hstep.guarantees⟩

theorem sat_getDir : (getDentry ino : MetaM σ _).Sat guard (EntriesRely a ino) i (Entries a ino)
    fun r x => r = some a ∧ Entries a ino x := by
  refine Prog.sat_lift (fun _ _ _ hr hx => ⟨hx.1, hr.entries hx.2⟩) fun x hx _ => ?_
  have hstep : Entries a ino (x.after i (.getDentry ino) x.state) :=
    hx.step hx.inv (.refl _) (fun _ _ _ h => h) fun _ _ h => by cases h
  exact ⟨⟨hx.index, hstep⟩, hstep.guarantees⟩

theorem sat_readDir : (readDentry a : MetaM σ _).Sat guard (EntriesRely a ino) i (Entries a ino)
    fun d x => d.inode.ino = ino ∧ Entries a ino x := by
  refine Prog.sat_lift (fun _ _ _ hr hx => ⟨hx.1, hr.entries hx.2⟩) fun x hx _ => ?_
  have hstep : Entries a ino (x.after i (.read a) x.state) :=
    hx.step hx.inv (.refl _) (fun _ _ _ h => h) fun _ _ h => by cases h
  exact ⟨⟨(hx.inv.indexed _ _ hx.index).2, hstep⟩, hstep.guarantees⟩

/-- The local lookup: what it finds is entered. -/
theorem sat_find : (cache (.find ino name) fun _ => LocalMemMeta.findDentry ino name : MetaM σ _).Sat guard
    (EntriesRely a ino) i (Entries a ino) fun r x => (∀ ch, r = some ch → Entered a x.past name ch) ∧ Entries a ino x := by
  refine Prog.sat_lift (fun _ x y hr hx => ⟨fun ch h => hr.entered _ _ (hx.1 ch h), hr.entries hx.2⟩) fun x hx _ => ?_
  simp only [onCache, zoom, run_findDentry hx.index]
  have hentry : ∀ n ch, entry a (.find ino name) x.state = some (n, ch) ↔
      (x.state.cache.heap a).getChild name = some ch ∧ name = n := by
    intro n ch
    simp [entry, Option.map_eq_some_iff]
  have hstep : Entries a ino (x.after i (.find ino name) x.state) := by
    refine hx.step hx.inv (.refl _) (fun _ _ _ h => h) fun n ch h => ?_
    obtain ⟨hch, rfl⟩ := (hentry n ch).mp h
    exact hch
  exact ⟨⟨fun ch h => entered_after.mpr (.inr ((hentry name ch).mpr ⟨h, rfl⟩)), hstep⟩, hstep.guarantees⟩

end

section
variable {guard : ι → MetaAct → MetaConf ι σ → Prop} (hguard : Sparing a ino guard)
include hguard

/-- A dentry is made under a name that no call has entered. -/
theorem sat_insert {f : Timespec → LocalM Addr} (hf : MakesChild ino name f) :
    (cache (.insert ino name) f : MetaM σ _).Sat guard (EntriesRely a ino) i (Entries a ino)
      fun ch x => Entered a x.past name ch ∧ Entries a ino x := by
  refine Prog.sat_lift (fun _ x y hr hx => ⟨hr.entered _ _ hx.1, hr.entries hx.2⟩) fun x hx hg => ?_
  have ha := (hx.inv.indexed _ _ hx.index).1
  obtain ⟨inode, hino, hrun⟩ := hf.run hx.inv hx.index x.state.now
  simp only [onCache, zoom, hrun]
  have hfresh : Fresh x.state.cache.issue inode.ino := hino ▸ hx.inv.fresh
  have hheap : ((x.state.cache.issue.link a name inode).heap a).children =
      (x.state.cache.heap a).children.insert name x.state.cache.heapNext := by
    rw [heap_link_parent (m := x.state.cache.issue) ha]
    rfl
  have hstep : Entries a ino (x.after i (.insert ino name)
      { x.state with cache := x.state.cache.issue.link a name inode }) := by
    refine hx.step (hx.inv.issue.link ha hfresh) (Grow.issue.trans (.link hx.inv.issue ha hfresh)) (fun n ch he h => ?_)
      fun n ch h => ?_
    · have hne : n ≠ name := by
        rintro rfl
        exact hguard i ino n x hx hg ch he
      rw [Dentry.getChild, hheap, AList.lookup_insert_ne hne]
      exact h
    · obtain ⟨rfl, rfl⟩ := Prod.mk.inj (Option.some.inj h)
      rw [Dentry.getChild, hheap, AList.lookup_insert]
  exact ⟨⟨entered_after.mpr (.inr rfl), hstep⟩, hstep.guarantees⟩

end

/-! ### The programs of the calls -/

section
variable {guard : ι → MetaAct → MetaConf ι σ → Prop}

/-- The entry of a create call is among the children. -/
def HasEntered (a : Addr) (ino : InodeID) (name : Str) (ch : Addr) (x : MetaConf ι σ) : Prop :=
  Entered a x.past name ch ∧ Entries a ino x

theorem sat_keep {p : MetaM σ α} (hp : Quiet (fun _ => ()) p) :
    p.Sat guard (EntriesRely a ino) i (HasEntered a ino name ch) fun _ => HasEntered a ino name ch := by
  refine (((sat_quiet hp).frame (F := fun x => Entered a x.past name ch) (fun _ _ _ h => entered_later h)
    stable_entered).pre ?_).post ?_
  · exact fun x hx => hx.symm
  · exact fun _ x hx => hx.symm

/-- What a lookup returns is held. -/
def Found (a : Addr) (ino : InodeID) (name : Str) (r : Option Addr) (x : MetaConf ι σ) : Prop :=
  match r with
  | some ch => HasEntered a ino name ch x
  | none => Entries a ino x

theorem sat_made {l : MetaM σ Addr} (h : l.Sat guard (EntriesRely a ino) i (Entries a ino)
    fun ch => HasEntered a ino name ch) : (do
      let d ← l
      incTtl opt d
      pure d : MetaM σ Addr).Sat guard (EntriesRely a ino) i (Entries a ino) fun ch => HasEntered a ino name ch :=
  h.bind fun _ => (sat_keep quiet_incTtl).bind fun _ => Prog.sat_pure fun _ hx => hx

end

section
variable {guard : ι → MetaAct → MetaConf ι σ → Prop} (hguard : Sparing a ino guard)
include hguard

theorem sat_addVirtualDir : (addVirtualDir opt a name : MetaM σ _).Sat guard (EntriesRely a ino) i
    (Entries a ino) fun ch => HasEntered a ino name ch := by
  refine sat_readDir.bind fun p => Prog.Sat.of_fact fun hp => ?_
  rw [hp]
  exact sat_made (sat_insert hguard makes_new)

theorem sat_findRemote : (findRemote opt st ino name).Sat guard (EntriesRely a ino) i (Entries a ino)
    (Found a ino name) := by
  refine sat_getDir.bind fun r => Prog.Sat.of_fact ?_
  rintro rfl
  refine (sat_quiet (quiet_getRemoteObj reads_const)).bind ?_
  rintro ⟨obj, exist, isDir⟩
  cases exist with
  | true =>
    exact (sat_insert hguard makes_fromObj).bind fun _ => (sat_keep quiet_incTtl).bind fun _ => Prog.sat_pure fun _ hx => hx
  | false =>
    refine (sat_quiet quiet_pathWithSlash).bind fun pre => (sat_quiet (quiet_isRemoteDirExist reads_const)).bind fun exist => ?_
    cases exist with
    | true => exact (sat_addVirtualDir hguard).map
    | false => exact Prog.sat_pure fun _ hx => hx

theorem sat_findDentry : (findDentry opt st ino name false).Sat guard (EntriesRely a ino) i (Entries a ino)
    (Found a ino name) := by
  refine sat_find.bind fun d => ?_
  cases d with
  | none => exact (sat_findRemote hguard).pre fun _ hx => hx.2
  | some ch =>
    have hheld : ∀ x : MetaConf ι σ, (∀ ch', some ch = some ch' → Entered a x.past name ch') ∧ Entries a ino x →
        HasEntered a ino name ch x := fun x hx => ⟨hx.1 ch rfl, hx.2⟩
    refine Prog.Sat.pre ((sat_keep (quiet_look rfl)).bind fun expired => ?_) hheld
    cases expired with
    | true =>
      refine ((sat_keep (quiet_revalidate reads_const)).returns returns_revalidate).post ?_
      rintro _ x ⟨rfl, hx⟩
      exact hx
    | false => exact Prog.sat_pure fun _ hx => hx

theorem sat_createDentry {mode : Mode} : (createDentry opt st ino name mode).Sat guard (EntriesRely a ino) i
    (Entries a ino) fun ch => HasEntered a ino name ch := by
  refine (sat_findDentry hguard).bind fun d => ?_
  cases d with
  | some ch => exact Prog.sat_pure fun _ hx => hx
  | none =>
    refine sat_getDir.bind fun r => Prog.Sat.of_fact ?_
    rintro rfl
    refine (sat_quiet quiet_newKey).bind fun key => (sat_quiet quiet_readDentry).bind fun p => ?_
    exact (sat_quiet (quiet_call rfl fun _ => rfl)).bind fun _ => sat_insert hguard makes_new

end

/-! ### A load -/

theorem sat_build {nodes : List FTreeNode} (hflat : ∀ node ∈ nodes, node.children = []) :
    (cache (.build ino (nodes.map FTreeNode.name)) fun now => buildDentries now ino nodes : MetaM σ Unit).Sat
      (Undisturbed a) (EntriesRely a ino) i (Entries a ino) fun _ => Entries a ino := by
  refine Prog.sat_lift (fun _ => stable_entries) fun x hx _ => ?_
  obtain ⟨m', hrun, hb⟩ := run_buildDentries x.state.now hx.inv hx.index hflat
  simp only [onCache, zoom, hrun]
  have hstep : Entries a ino (x.after i (.build ino (nodes.map FTreeNode.name)) { x.state with cache := m' }) :=
    hx.step hb.inv hb.grow (fun n ch _ h => hb.child n ch h) fun _ _ h => by cases h
  exact ⟨hstep, hstep.guarantees⟩

theorem sat_refreshPages {pre : Str} (fuel : Nat) (marker : Str) : (refreshLoop st ino pre fuel marker).Sat (Undisturbed a)
    (EntriesRely a ino) i (Entries a ino) fun _ => Entries a ino := by
  induction fuel generalizing marker with
  | zero => trivial
  | succ fuel ih =>
    refine (sat_quiet (quiet_call rfl fun _ => rfl)).bind fun resp => ?_
    cases hft : buildFtree pre resp with
    | none => trivial
    | some nodes =>
      refine (sat_build (flat_buildFtree hft)).bind fun _ => ?_
      split
      · exact ih _
      · exact Prog.sat_pure fun _ hx => hx

/-- The sweep spares what carries a mark. -/
theorem sat_sweep : (cache (.sweep a) fun now => clearUnsyncDentry now a : MetaM σ Unit).Sat (Undisturbed a)
    (EntriesRely a ino) i (Entries a ino) fun _ => Entries a ino := by
  refine Prog.sat_lift (fun _ => stable_entries) fun x hx hg => ?_
  obtain ⟨m', hrun, hs⟩ := run_clearUnsyncDentry x.state.now hx.inv (hx.inv.indexed _ _ hx.index).1
  simp only [onCache, zoom, hrun]
  have hstep : Entries a ino (x.after i (.sweep a) { x.state with cache := m' }) := by
    refine hx.step hs.inv hs.grow (fun n ch he h => ?_) fun _ _ h => by cases h
    obtain ⟨e, hmem, hentry⟩ := he
    exact (hs.child a .start n ch).mpr ⟨h, hg e hmem _ hentry⟩
  exact ⟨hstep, hstep.guarantees⟩

theorem sat_loadSubDentries {fuel : Nat} : (loadSubDentries st fuel ino).Sat (Undisturbed a) (EntriesRely a ino) i
    (Entries a ino) fun _ => Entries a ino := by
  refine sat_getDir.bind fun r => Prog.Sat.of_fact ?_
  rintro rfl
  refine (sat_quiet (quiet_look rfl)).bind fun stale => ?_
  have hlist : (listChildren a : MetaM σ _).Sat (Undisturbed a) (EntriesRely a ino) i (Entries a ino)
      fun _ => Entries a ino := sat_quiet quiet_listChildren
  cases stale with
  | false => exact hlist
  | true =>
    refine ((sat_quiet quiet_pathWithSlash).bind fun pre => sat_readDir.bind fun d => Prog.Sat.of_fact ?_).bind fun _ => hlist
    rintro hino
    rw [hino]
    exact (sat_refreshPages fuel []).bind fun _ => sat_sweep

/-! ### The calls together -/

/-- What a finished call promises. -/
def DirCall.Promise (a : Addr) (ino : InodeID) (call : DirCall) (r : Option Addr) (x : MetaConf ι σ) : Prop :=
  match call, r with
  | .create name _, some ch => HasEntered a ino name ch x
  | _, _ => True

theorem sat_dirCall {fuel : Nat} (call : DirCall) : (call.prog opt st fuel ino).Sat (Undisturbed a) (EntriesRely a ino) i
    (Entries a ino) (call.Promise a ino) := by
  cases call with
  | load => exact (sat_loadSubDentries.post fun _ _ _ => trivial).map
  | create name mode =>
    have h : (createDentry opt st ino name mode).Sat (Undisturbed a) (EntriesRely a ino) i (Entries a ino)
        fun ch => (DirCall.create name mode).Promise a ino (some ch) := sat_createDentry sparing_undisturbed
    exact h.map

theorem entriesRely_later {x : MetaConf ι σ} {s' : World σ} (h : Later x.state s') :
    EntriesRely a ino i x { x with state := s' } where
  entries hx := by
    have hc : s'.cache = x.state.cache := h.cache
    exact ⟨hc ▸ hx.inv, hc ▸ hx.index, fun n ch he => hc ▸ hx.entered n ch he⟩
  entered _ _ h := h

section
variable [DecidableEq ι]

/-- Whatever the store answers and in whatever order the calls take their steps, the dentry that a create call
    returned stays the child of that name, as long as each sweep finds what the create calls entered marked and no
    dentry is made under a name that was entered before. -/
theorem created_kept {opt' : MetaOpt} {m : LocalMemMeta} (hm : Reachable opt' m) (ha : m.lookup ino = some a)
    (calls : ι → DirCall) (fuel : ι → Nat) (t : σ) (now : Timespec) (garbage : Garbage)
    {y : Pool ι MetaAct Err (World σ) (Option Addr)}
    (h : Pool.Runs (Undisturbed a) Later (.start (fun i => (calls i).prog opt st (fuel i) ino) ⟨m, t, now, garbage⟩) y)
    {i : ι} {mode : Mode} (hcall : calls i = .create name mode) (hret : y.threads i = .ret (some ch)) :
    (y.conf.state.cache.heap a).getChild name = some ch := by
  have hstart : Entries a ino (⟨[], ⟨m, t, now, garbage⟩⟩ : MetaConf ι σ) := by
    refine ⟨hm.inv, ha, ?_⟩
    rintro n ch ⟨e, he, -⟩
    cases he
  have hgood : Pool.Good (Undisturbed a) (EntriesRely a ino) (fun i => (calls i).Promise a ino)
      (Pool.start (fun i => (calls i).prog opt st (fuel i) ino) ⟨m, t, now, garbage⟩) := fun i =>
    ⟨Entries a ino, stable_entries, hstart, sat_dirCall (calls i)⟩
  have hpromise := Pool.sound (fun _ _ _ => entriesRely_later) hgood h hret
  rw [hcall] at hpromise
  exact hpromise.2.entered name ch hpromise.1

end

/-! ### A load and creations -/

def oneOfEach (creates : Bool) : DirCall := if creates then .create ['f'] S_IFREG else .load

/-- A load of the root of a new mount, and the creation of `f` in it, over an empty bucket. -/
def loadAndCreate : Pool Bool MetaAct Err (World Log) (Option Addr) :=
  .start (fun i => (oneOfEach i).prog ⟨0, 0, 60⟩ (s3Stor Log.client) 1 ROOT_INODE_ID) ⟨newCache, [], ⟨0, 0⟩, noGarbage⟩

/-- The load lists after the object was put and the dentry made, and finds both. -/
theorem created_kept_listed : ∃ y ch, Pool.Runs (Undisturbed 0) Later loadAndCreate y ∧
    (∃ r, y.threads false = .ret r) ∧ y.threads true = .ret (some ch) ∧
    (y.conf.state.cache.heap 0).getChild ['f'] = some ch := by
  have hrun : (loadAndCreate.exec (fun i l x => decide (Undisturbed 0 i l x))
      (List.replicate 4 false ++ List.replicate 13 true ++ List.replicate 4 false)).any (fun y =>
        (y.threads false).value.isSome && decide ((y.threads true).value = some (some 1))) = true := by decide +kernel
  obtain ⟨y, hy, hret⟩ := (Option.any_eq_true _ _).mp hrun
  obtain ⟨hload, hvalue⟩ := Bool.and_eq_true_iff.mp hret
  have hcreate : y.threads true = .ret (some 1) := Prog.of_value_eq (of_decide_eq_true hvalue)
  have hruns : Pool.Runs (Undisturbed 0) Later (.start (fun i => (oneOfEach i).prog ⟨0, 0, 60⟩ (s3Stor Log.client) 1
      ROOT_INODE_ID) ⟨newCache, [], ⟨0, 0⟩, noGarbage⟩) y := Pool.runs_exec (fun _ _ _ => of_decide_eq_true) hy
  refine ⟨y, 1, hruns, Prog.of_value hload, hcreate, ?_⟩
  exact created_kept (show Reachable ⟨0, 0, 60⟩ newCache from .new ⟨0, 0⟩)
    (show newCache.lookup ROOT_INODE_ID = some 0 from rfl) oneOfEach
    (fun _ => 1) [] ⟨0, 0⟩ noGarbage hruns (show oneOfEach true = _ from rfl) hcreate

/-- A load of the root of a new mount, and two creations of `f` in it. -/
def loadAndTwoCreates : Pool (Option Bool) MetaAct Err (World Log) (Option Addr) :=
  .start (fun i => (oneOfEach i.isSome).prog ⟨0, 0, 60⟩ (s3Stor Log.client) 1 ROOT_INODE_ID) (newWorld [])

/-- Neither creation sees the other's entry, and the later entry takes the place of the earlier one, in a run whose sweep
    removes nothing. And the load lists before the object is put and sweeps after the dentry was made, which has no mark. -/
theorem created_lost :
    (∃ y ch, Pool.Runs (fun _ l x => l.Spares x.state.cache) Later loadAndTwoCreates y ∧ (∃ r, y.threads none = .ret r) ∧
      (∃ r, y.threads (some false) = .ret r) ∧ y.threads (some true) = .ret (some ch) ∧
      (y.conf.state.cache.heap 0).getChild ['f'] ≠ some ch) ∧
    ∃ y ch, Pool.Runs (fun _ _ _ => True) Later loadAndCreate y ∧ (∃ r, y.threads false = .ret r) ∧
      y.threads true = .ret (some ch) ∧ (y.conf.state.cache.heap 0).getChild ['f'] = none := by
  constructor
  · have hrun : (loadAndTwoCreates.exec (fun _ l x => sparesWithin 1 l x.state.cache) (List.replicate 11 (some false) ++
        List.replicate 13 (some true) ++ List.replicate 2 (some false) ++ List.replicate 8 none)).any (fun y =>
          ((y.threads none).value.isSome && (y.threads (some false)).value.isSome) &&
            (decide ((y.threads (some true)).value = some (some 1)) &&
              decide ((y.conf.state.cache.heap 0).getChild ['f'] ≠ some 1))) = true := by decide +kernel
    obtain ⟨y, hy, hret⟩ := (Option.any_eq_true _ _).mp hrun
    simp only [Bool.and_eq_true, decide_eq_true_eq] at hret
    obtain ⟨⟨hload, hfirst⟩, hvalue, hother⟩ := hret
    exact ⟨y, 1, Pool.runs_exec (fun _ _ _ h => spares_of_within h) hy, Prog.of_value hload, Prog.of_value hfirst,
      Prog.of_value_eq hvalue, hother⟩
  · have hrun : (loadAndCreate.exec (fun _ _ _ => true)
        (List.replicate 6 false ++ List.replicate 13 true ++ List.replicate 2 false)).any (fun y =>
          (y.threads false).value.isSome && decide ((y.threads true).value = some (some 1)) &&
            ((y.conf.state.cache.heap 0).getChild ['f']).isNone) = true := by decide +kernel
    obtain ⟨y, hy, hret⟩ := (Option.any_eq_true _ _).mp hrun
    simp only [Bool.and_eq_true, decide_eq_true_eq, Option.isNone_iff_eq_none] at hret
    obtain ⟨⟨hload, hvalue⟩, hnone⟩ := hret
    exact ⟨y, 1, Pool.runs_exec (fun _ _ _ _ => trivial) hy, Prog.of_value hload, Prog.of_value_eq hvalue, hnone⟩

end MetaImpl

end Catfs
