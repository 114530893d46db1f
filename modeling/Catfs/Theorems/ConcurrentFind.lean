import Catfs.Theorems.ConcurrentCreate
import Catfs.Theorems.Effects

/-! # Calls for one name at the same time

Any number of `find_dentry` and `create_dentry` calls for one name of one directory, over any store that may change
under them. As long as none of them makes a dentry while the directory has a child of that name, they agree on one. -/

namespace Catfs

open Lib MetaM LocalMemMeta

namespace MetaImpl

variable {ι σ : Type} {opt : MetaOpt} {st : Stor σ} {a c ch : Addr} {ino : InodeID} {i : ι} {name : Str}

/-- A call for a name. -/
inductive NameCall where
  | find
  | create (mode : Mode)
  deriving DecidableEq, Repr

/-- The call for `name` in the directory `ino`, with the dentry that it returns. -/
def NameCall.prog (opt : MetaOpt) (st : Stor σ) (ino : InodeID) (name : Str) : NameCall → MetaM σ (Option Addr)
  | .find => findDentry opt st ino name false
  | .create mode => some <$> createDentry opt st ino name mode

/-- A dentry is made only where `a` has no child of its name. -/
def Vacant (a : Addr) (_ : ι) (l : MetaAct) (x : MetaConf ι σ) : Prop :=
  match l with
  | .insert _ name => (x.state.cache.heap a).getChild name = none
  | _ => True

instance (i : ι) (l : MetaAct) (x : MetaConf ι σ) : Decidable (Vacant a i l x) :=
  match l with
  | .insert _ name => inferInstanceAs (Decidable ((x.state.cache.heap a).getChild name = none))
  | .find .. | .read _ | .check _ | .getDentry _ | .head _ | .list .. | .put _ | .delete _ | .erase .. | .touch _
  | .update .. | .build .. | .sweep _ => .isTrue trivial

/-- The clock and the store change, the cache does not. -/
def Outside (s s' : World σ) : Prop := s'.cache = s.cache

/-! ### What the calls return -/

theorem sparing_vacant : Sparing a ino (Vacant a : ι → MetaAct → MetaConf ι σ → Prop) := by
  intro i pino name x hx hg ch he
  have hnone : (x.state.cache.heap a).getChild name = none := hg
  rw [hx.entered name ch he] at hnone
  cases hnone

theorem sat_nameCall (call : NameCall) : (call.prog opt st ino name).Sat (Vacant a) (EntriesRely a ino) i (Entries a ino)
    (Found a ino name) := by
  cases call with
  | find => exact sat_findDentry sparing_vacant
  | create mode =>
    have h : (createDentry opt st ino name mode).Sat (Vacant a) (EntriesRely a ino) i (Entries a ino)
        fun ch => Found a ino name (some ch) := sat_createDentry sparing_vacant
    exact h.map

theorem entriesRely_outside {x : MetaConf ι σ} {s' : World σ} (h : Outside x.state s') :
    EntriesRely a ino i x { x with state := s' } where
  entries hx := by
    have hc : s'.cache = x.state.cache := h
    exact ⟨hc ▸ hx.inv, hc ▸ hx.index, fun n ch he => hc ▸ hx.entered n ch he⟩
  entered _ _ h := h

/-! ### What they make -/

/-- Since the cache was `m`, nothing was made for the entry `name` of `a` but the child that `a` has, and not even that
    when it had one. -/
structure OneMade (m : LocalMemMeta) (a : Addr) (name : Str) (m' : LocalMemMeta) : Prop where
  inv : m'.Inv
  grow : Grow m m'
  alloc : a < m'.heapNext
  made : ∀ c, m.heapNext ≤ c → c < m'.heapNext → (m'.heap c).parent = some a → (m'.heap c).name = name →
    (m'.heap a).getChild name = some c
  child : ∀ ch, (m.heap a).getChild name = some ch → (m'.heap a).getChild name = some ch

theorem OneMade.still {m m₁ m₂ : LocalMemMeta} (h : OneMade m a name m₁) (hm : m₂.Inv) (hs : Still m₁ m₂) :
    OneMade m a name m₂ where
  inv := hm
  grow := h.grow.trans hs.grow
  alloc := hs.next ▸ h.alloc
  made c hc hc' hp hn := by
    rw [hs.next] at hc'
    rw [hs.getChild]
    exact h.made c hc hc' ((hs.grow.parent c hc').symm.trans hp) ((hs.grow.name c hc').symm.trans hn)
  child ch hch := hs.getChild.trans (h.child ch hch)

theorem OneMade.link {m m₁ : LocalMemMeta} {p : Addr} {n : Str} {inode : Inode} (h : OneMade m a name m₁)
    (hp : p < m₁.heapNext) (hi : Fresh m₁ inode.ino) (hvacant : (m₁.heap a).getChild n = none) :
    OneMade m a name (m₁.link p n inode) := by
  have hg : Grow m₁ (m₁.link p n inode) := .link h.inv hp hi
  refine ⟨h.inv.link hp hi, h.grow.trans hg, Nat.lt_succ_of_lt h.alloc, ?_, ?_⟩
  · intro c hc hc' hpar hn
    rcases Nat.lt_or_ge c m₁.heapNext with hlt | hge
    · have hch := h.made c hc hlt ((hg.parent c hlt).symm.trans hpar) ((hg.name c hlt).symm.trans hn)
      by_cases hpa : a = p
      · subst hpa
        have hne : name ≠ n := by
          rintro rfl
          rw [hch] at hvacant
          cases hvacant
        rw [heap_link_parent hp]
        exact (AList.lookup_insert_ne hne).trans hch
      · rw [heap_link_other h.alloc hpa]
        exact hch
    · -- The new dentry is the child of its parent.
      obtain rfl : c = m₁.heapNext := Nat.le_antisymm (Nat.le_of_lt_succ hc') hge
      rw [heap_link_new n inode hp] at hpar hn
      obtain rfl : p = a := Option.some.inj hpar
      obtain rfl : n = name := hn
      rw [heap_link_parent hp]
      exact AList.lookup_insert _
  · intro ch hch
    have hch' := h.child ch hch
    by_cases hpa : a = p
    · subst hpa
      have hne : name ≠ n := by
        rintro rfl
        rw [hch'] at hvacant
        cases hvacant
      rw [heap_link_parent hp]
      exact (AList.lookup_insert_ne hne).trans hch'
    · rw [heap_link_other h.alloc hpa]
      exact hch'

theorem OneMade.changes {m m₁ m₂ : LocalMemMeta} {now : Timespec} {l : MetaAct} {x : MetaConf ι σ}
    (h : OneMade m a name m₁) (hx : x.state.cache = m₁) (hl : widens l = true) (hg : Vacant a i l x)
    (hc : Changes l now m₁ m₂) : OneMade m a name m₂ := by
  have hsame : m₂ = m₁ → OneMade m a name m₂ := by
    rintro rfl
    exact h
  have hm := (hc.keeps h.inv).1
  subst hx
  cases l with
  | insert pino n =>
    rcases hc with ⟨p, inode, hp, hi, rfl⟩ | ⟨-, hc | rfl⟩
    · have halloc := (h.inv.indexed _ _ hp).1
      have hfresh : Fresh x.state.cache.issue inode.ino := hi ▸ h.inv.fresh
      exact (h.still h.inv.issue still_issue).link halloc hfresh hg
    · exact hsame hc
    · exact h.still hm still_issue
  | touch b =>
    obtain ⟨t, -, rfl⟩ := hc
    exact h.still hm (.set Mild.incTtl (fun _ => rfl) fun _ => rfl)
  | update j =>
    rcases hc with ⟨b, u, -, rfl⟩ | ⟨-, hc⟩
    · exact h.still hm (.set Mild.apply (fun _ => rfl) fun _ => rfl)
    · exact hsame hc
  | erase => cases hl
  | build => cases hl
  | sweep => cases hl
  | _ => exact hsame hc

theorem acts_nameCall (call : NameCall) :
    Acts (fun l => widens l = true) (fun _ => True) (call.prog opt st ino name) fun _ _ => True := by
  cases call with
  | find => exact acts_findDentry fun _ hl => hl
  | create mode => exact Prog.Moves.map (acts_createDentry fun _ hl => hl)

/-! ### The calls together -/

/-- In the index, `i` is the number of a dentry made for the entry `name` of `a`. -/
def EnteredFor (m : LocalMemMeta) (a : Addr) (name : Str) (i : InodeID) : Prop :=
  ∃ c, m.lookup i = some c ∧ (m.heap c).parent = some a ∧ (m.heap c).name = name

section
variable [DecidableEq ι]

theorem oneMade_runs {m : LocalMemMeta} (hm : m.Inv) (ha : a < m.heapNext) (calls : ι → NameCall) (t : σ) (now : Timespec)
    (garbage : Garbage) {y : Pool ι MetaAct Err (World σ) (Option Addr)}
    (h : Pool.Runs (Vacant a) Outside (.start (fun i => (calls i).prog opt st ino name) ⟨m, t, now, garbage⟩) y) :
    OneMade m a name y.conf.state.cache := by
  have hmoving : Pool.Moving CacheGrow (fun l s s' => widens l = true ∧ Effect l s s') CacheInv (fun _ _ _ => True)
      (Pool.start (fun i => (calls i).prog opt st ino name) ⟨m, t, now, garbage⟩) := fun i =>
    ⟨fun _ => True, Prog.persists_true, trivial, acts_nameCall (calls i)⟩
  have hstart : OneMade m a name m :=
    ⟨hm, .refl m, ha, fun c hc hc' => absurd hc' (Nat.not_lt.mpr hc), fun _ hch => hch⟩
  refine (Pool.invariant (J := fun x => OneMade m a name x.state.cache) (fun _ hx => hx.inv) ?_ ?_ hmoving hstart h).1
  · rintro i l x s' hx hg ⟨hl, hc, -⟩
    exact ⟨hx.changes rfl hl hg hc, (hc.keeps hx.inv).2⟩
  · intro x s' hx hs
    have hc : s'.cache = x.state.cache := hs
    refine ⟨?_, ?_⟩
    · show OneMade m a name s'.cache
      rw [hc]
      exact hx
    · rw [CacheGrow, hc]
      exact .refl _

theorem returned_runs {m : LocalMemMeta} (hm : m.Inv) (ha : m.lookup ino = some a) (calls : ι → NameCall) (t : σ)
    (now : Timespec) (garbage : Garbage) {y : Pool ι MetaAct Err (World σ) (Option Addr)}
    (h : Pool.Runs (Vacant a) Outside (.start (fun i => (calls i).prog opt st ino name) ⟨m, t, now, garbage⟩) y)
    (hret : y.threads i = .ret (some ch)) : (y.conf.state.cache.heap a).getChild name = some ch := by
  have hstart : Entries a ino (⟨[], ⟨m, t, now, garbage⟩⟩ : MetaConf ι σ) := by
    refine ⟨hm, ha, ?_⟩
    rintro n ch ⟨e, he, -⟩
    cases he
  have hgood : Pool.Good (Vacant a) (EntriesRely a ino) (fun _ => Found a ino name)
      (Pool.start (fun i => (calls i).prog opt st ino name) ⟨m, t, now, garbage⟩) := fun i =>
    ⟨Entries a ino, stable_entries, hstart, sat_nameCall (calls i)⟩
  have hfound := Pool.sound (fun _ _ _ => entriesRely_outside) hgood h hret
  exact hfound.2.entered name ch hfound.1

/-- Calls none of which makes a dentry where the directory has a child of that name all return the child that it has in
    the end, and at most one dentry is entered in the index for them, none if there was a child before. -/
theorem calls_agree {opt' : MetaOpt} {m : LocalMemMeta} (hm : Reachable opt' m) (ha : m.lookup ino = some a)
    (calls : ι → NameCall) (t : σ) (now : Timespec) (garbage : Garbage) {y : Pool ι MetaAct Err (World σ) (Option Addr)}
    (h : Pool.Runs (Vacant a) Outside (.start (fun i => (calls i).prog opt st ino name) ⟨m, t, now, garbage⟩) y) :
    (∀ i ch, y.threads i = .ret (some ch) → (y.conf.state.cache.heap a).getChild name = some ch) ∧
    (∀ i j, m.lookup i = none → m.lookup j = none → EnteredFor y.conf.state.cache a name i →
      EnteredFor y.conf.state.cache a name j → i = j) ∧
    ∀ ch, (m.heap a).getChild name = some ch → (y.conf.state.cache.heap a).getChild name = some ch ∧
      ∀ j, m.lookup j = none → ¬ EnteredFor y.conf.state.cache a name j := by
  have hone := oneMade_runs hm.inv (hm.inv.indexed _ _ ha).1 calls t now garbage h
  have hnew : ∀ j, m.lookup j = none → EnteredFor y.conf.state.cache a name j →
      ∃ c, m.heapNext ≤ c ∧ (y.conf.state.cache.heap a).getChild name = some c ∧ (y.conf.state.cache.heap c).inode.ino = j := by
    rintro j hj ⟨c, hc, hp, hn⟩
    obtain ⟨hlt, hino⟩ := hone.inv.indexed _ _ hc
    rcases Nat.lt_or_ge c m.heapNext with hold | hge
    · have hindex := hm.inv.index c hold
      rw [← hone.grow.ino c hold, hino, hj] at hindex
      cases hindex
    · exact ⟨c, hge, hone.made c hge hlt hp hn, hino⟩
  refine ⟨fun i ch hret => returned_runs hm.inv ha calls t now garbage h hret, ?_, ?_⟩
  · intro i j hi hj hei hej
    obtain ⟨c, -, hc, rfl⟩ := hnew i hi hei
    obtain ⟨c', -, hc', rfl⟩ := hnew j hj hej
    rw [Option.some.inj (hc.symm.trans hc')]
  · intro ch hch
    refine ⟨hone.child ch hch, fun j hj he => ?_⟩
    obtain ⟨c, hle, hc, -⟩ := hnew j hj he
    obtain rfl : ch = c := Option.some.inj ((hone.child ch hch).symm.trans hc)
    exact Nat.not_lt.mpr hle (hm.inv.child a name ch (hm.inv.indexed _ _ ha).1 hch).2.1

end

/-! ### Two calls -/

def findAnd (create : Bool) : NameCall := if create then .create S_IFREG else .find

/-- A lookup of `f` in the root of a new mount, and its creation, over an empty bucket. -/
def findAndCreate : Pool Bool MetaAct Err (World Log) (Option Addr) :=
  .start (fun i => (findAnd i).prog ⟨0, 0, 60⟩ (s3Stor Log.client) ROOT_INODE_ID ['f']) (newWorld [])

/-- The lookup begins when the creation has ended. -/
theorem calls_agree_inTurn : ∃ y, Pool.Runs (Vacant 0) Outside findAndCreate y ∧
    y.threads false = .ret (some 1) ∧ y.threads true = .ret (some 1) ∧
    (y.conf.state.cache.heap 0).getChild ['f'] = some 1 := by
  have hrun : (findAndCreate.exec (fun i l x => decide (Vacant 0 i l x))
      (List.replicate 13 true ++ List.replicate 2 false)).any (fun y =>
        decide ((y.threads false).value = some (some 1)) && decide ((y.threads true).value = some (some 1))) = true := by
    decide +kernel
  obtain ⟨y, hy, hret⟩ := (Option.any_eq_true _ _).mp hrun
  obtain ⟨hfind, hcreate⟩ := Bool.and_eq_true_iff.mp hret
  have hruns : Pool.Runs (Vacant 0) Outside (.start (fun i => (findAnd i).prog ⟨0, 0, 60⟩ (s3Stor Log.client)
      ROOT_INODE_ID ['f']) (newWorld [])) y := Pool.runs_exec (fun _ _ _ => of_decide_eq_true) hy
  have hagree := calls_agree (show Reachable ⟨0, 0, 60⟩ newCache from .new ⟨0, 0⟩)
    (show newCache.lookup ROOT_INODE_ID = some 0 from rfl) findAnd [] ⟨0, 0⟩ noGarbage hruns
  have htrue : y.threads true = .ret (some 1) := Prog.of_value_eq (of_decide_eq_true hcreate)
  exact ⟨y, hruns, Prog.of_value_eq (of_decide_eq_true hfind), htrue, hagree.1 true 1 htrue⟩

/-- Two lookups of `f` in the root of a new mount. -/
def twoFinds : Pool Bool MetaAct Err (World Log) (Option Addr) :=
  .start (fun _ => NameCall.find.prog ⟨0, 0, 60⟩ (s3Stor Log.client) ROOT_INODE_ID ['f']) (newWorld (Log.holding ['f']))

/-- Both ask the store before either makes a dentry: each makes its own. -/
theorem finds_disagree : ∃ y ch ch', Pool.Runs (fun _ _ _ => True) Outside twoFinds y ∧
    y.threads false = .ret (some ch) ∧ y.threads true = .ret (some ch') ∧
    (y.conf.state.cache.heap ch).inode.ino ≠ (y.conf.state.cache.heap ch').inode.ino ∧
    (y.conf.state.cache.heap 0).getChild ['f'] ≠ some ch' ∧
    EnteredFor y.conf.state.cache 0 ['f'] 2 ∧ EnteredFor y.conf.state.cache 0 ['f'] 3 := by
  have hrun : (twoFinds.exec (fun _ _ _ => true)
      (List.replicate 5 false ++ List.replicate 7 true ++ List.replicate 2 false)).any (fun y =>
        decide ((y.threads false).value = some (some 2)) && decide ((y.threads true).value = some (some 1)) &&
        decide ((y.conf.state.cache.heap 2).inode.ino ≠ (y.conf.state.cache.heap 1).inode.ino) &&
        decide ((y.conf.state.cache.heap 0).getChild ['f'] ≠ some 1) &&
        decide (y.conf.state.cache.lookup 2 = some 1 ∧ (y.conf.state.cache.heap 1).parent = some 0 ∧
          (y.conf.state.cache.heap 1).name = ['f']) &&
        decide (y.conf.state.cache.lookup 3 = some 2 ∧ (y.conf.state.cache.heap 2).parent = some 0 ∧
          (y.conf.state.cache.heap 2).name = ['f'])) = true := by decide +kernel
  obtain ⟨y, hy, hret⟩ := (Option.any_eq_true _ _).mp hrun
  simp only [Bool.and_eq_true, decide_eq_true_eq] at hret
  obtain ⟨⟨⟨⟨⟨hfalse, htrue⟩, hne⟩, hchild⟩, hfirst⟩, hsecond⟩ := hret
  exact ⟨y, 2, 1, Pool.runs_exec (fun _ _ _ _ => trivial) hy, Prog.of_value_eq hfalse, Prog.of_value_eq htrue, hne, hchild,
    ⟨1, hfirst⟩, ⟨2, hsecond⟩⟩

end MetaImpl

end Catfs
