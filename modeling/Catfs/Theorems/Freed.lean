import Catfs.Theorems.FsRun
import Catfs.Theorems.LogClient

/-! # Freed dentries

`remove_child` frees the dentry it takes out of the map of its directory, with the inode. Nothing takes it out of the
index, so the index stays free of such entries exactly as long as `remove_child` finds no child. -/

namespace Catfs

open Lib CatFS MetaImpl LocalMemMeta
open EStateM (Result)

variable {m m' : LocalMemMeta} {a : Addr} {l : MetaAct} {now : Timespec}

/-- In a step from `m` to `m'`, `remove_child` took `a` from its directory and marked it freed. The operations that
    call it change the maps of children in no other way. -/
def Frees (l : MetaAct) (m m' : LocalMemMeta) (a : Addr) : Prop :=
  match l with
  | .erase .. | .sweep _ => ∃ p n, (m.heap p).getChild n = some a ∧ (m'.heap p).getChild n = none
  | _ => False

/-- `remove_child` will find no child: the name is none of the directory's, and the sweep meets only children with a
    mark. -/
def FindsNoChild (l : MetaAct) (m : LocalMemMeta) : Prop :=
  match l with
  | .erase pino name => ∀ p, m.lookup pino = some p → (m.heap p).getChild name = none
  | .sweep D => m.NothingToSweep D
  | _ => True

theorem frees_erase {pino : InodeID} {name : Str} (h : Changes (.erase pino name) now m m') :
    Frees (.erase pino name) m m' a ↔ ∃ p, m.lookup pino = some p ∧ (m.heap p).getChild name = some a := by
  rcases h with ⟨q, hq, rfl⟩ | ⟨hno, rfl⟩
  · constructor
    · rintro ⟨p, n, hc, hnone⟩
      by_cases hp : p = q
      · subst hp
        by_cases hn : n = name
        · exact ⟨p, hq, hn ▸ hc⟩
        · rw [heap_set_self] at hnone
          have hkept : (m.heap p).getChild n = none := (AList.lookup_erase_ne hn).symm.trans hnone
          rw [hc] at hkept
          cases hkept
      · rw [heap_set_ne hp, hc] at hnone
        cases hnone
    · rintro ⟨p, hp, hc⟩
      obtain rfl := Option.some.inj (hq.symm.trans hp)
      refine ⟨q, name, hc, ?_⟩
      rw [heap_set_self]
      exact AList.lookup_erase ..
  · constructor
    · rintro ⟨p, n, hc, hnone⟩
      rw [hc] at hnone
      cases hnone
    · rintro ⟨p, hp, -⟩
      rw [hno] at hp
      cases hp

theorem frees_sweep {D : Addr} (h : Changes (.sweep D) now m m') :
    Frees (.sweep D) m m' a ↔ ∃ d n, m.Visited D d ∧ (m.heap d).getChild n = some a ∧ (m.heap a).synced = false := by
  obtain ⟨-, hs, -⟩ := h
  constructor
  · rintro ⟨d, n, hc, hnone⟩
    by_cases hv : m.Visited D d
    · refine ⟨d, n, hv, hc, Bool.eq_false_iff.mpr fun hsync => ?_⟩
      rw [(hs.child d hv n a).mpr ⟨hc, hsync⟩] at hnone
      cases hnone
    · rw [Dentry.getChild, hs.children d hv, ← Dentry.getChild, hc] at hnone
      cases hnone
  · rintro ⟨d, n, hv, hc, hsync⟩
    refine ⟨d, n, hc, Option.eq_none_iff_forall_ne_some.mpr fun c hkept => ?_⟩
    obtain ⟨hc', hsync'⟩ := (hs.child d hv n c).mp hkept
    obtain rfl := Option.some.inj (hc.symm.trans hc')
    rw [hsync] at hsync'
    cases hsync'

theorem Frees.allocated (hm : Inv m) (h : Changes l now m m') (hf : Frees l m m' a) : a < m.heapNext := by
  cases l with
  | erase pino name =>
    obtain ⟨p, hp, hc⟩ := (frees_erase h).mp hf
    exact (hm.child p name a (hm.indexed _ _ hp).1 hc).2.1
  | sweep D =>
    obtain ⟨d, n, hv, hc, -⟩ := (frees_sweep h).mp hf
    exact (hm.child d n a (hv.allocated hm h.1).2 hc).2.1
  | _ => cases hf

/-- A step frees nothing exactly when `remove_child` finds no child. -/
theorem frees_nothing_iff (h : Changes l now m m') : (∀ a, ¬ Frees l m m' a) ↔ FindsNoChild l m := by
  cases l with
  | erase pino name =>
    constructor
    · intro hno p hp
      exact Option.eq_none_iff_forall_ne_some.mpr fun a hc => hno a ((frees_erase h).mpr ⟨p, hp, hc⟩)
    · intro hno a hf
      obtain ⟨p, hp, hc⟩ := (frees_erase h).mp hf
      rw [hno p hp] at hc
      cases hc
  | sweep D =>
    constructor
    · intro hno d n ch hv hc
      exact Bool.not_eq_false _ ▸ fun hsync => hno ch ((frees_sweep h).mpr ⟨d, n, hv, hc, hsync⟩)
    · intro hno a hf
      obtain ⟨d, n, hv, hc, hsync⟩ := (frees_sweep h).mp hf
      rw [hno d n a hv hc] at hsync
      cases hsync
  | _ => exact iff_of_true (fun _ => id) trivial

/-! ### Runs -/

section
variable {σ : Type} {opt : MetaOpt} {st : Stor σ}

/-- The steps of the metadata layer that the request takes. The requests on handles read dentries and set the size of
    an inode, none of which calls `remove_child`. -/
def FsReq.steps (opt : MetaOpt) (st : Stor σ) (fs : CatFS σ) : FsReq → List (MetaAct × World σ × World σ)
  | .request fuel r => (r.prog opt st fuel).transitions fs.world
  | _ => []

/-- The handle it releases. -/
def FsReq.releases : FsReq → List HandleID
  | .releaseFile hno => [hno]
  | _ => []

/-- The states of a mount, with the steps and the releases that led there. Between two requests the clock and the
    store change in any way. -/
inductive Mounted (opt : MetaOpt) (st : Stor σ) :
    CatFS σ → List (MetaAct × World σ × World σ) → List HandleID → Prop where
  | start (start : Timespec) (t : σ) (now : Timespec) (garbage : Garbage) :
      Mounted opt st (.start opt start t now garbage) [] []
  | request {fs : CatFS σ} {steps : List (MetaAct × World σ × World σ)} {released : List HandleID}
      (h : Mounted opt st fs steps released) (r : FsReq) :
      Mounted opt st (endState (r.exec opt st fs)) (steps ++ r.steps opt st fs) (released ++ r.releases)
  | outside {fs : CatFS σ} {steps : List (MetaAct × World σ × World σ)} {released : List HandleID}
      (h : Mounted opt st fs steps released) {w : World σ} (hw : w.cache = fs.world.cache) :
      Mounted opt st { fs with world := w } steps released

/-- Marked freed by one of the steps. -/
def Freed (steps : List (MetaAct × World σ × World σ)) (a : Addr) : Prop :=
  ∃ e ∈ steps, Frees e.1 e.2.1.cache e.2.2.cache a

/-- No index entry is freed, and the inode of each handle not yet released has an index entry. -/
structure Unfreed (fs : CatFS σ) (steps : List (MetaAct × World σ × World σ)) (released : List HandleID) : Prop where
  index : ∀ ino a, fs.world.cache.lookup ino = some a → ¬ Freed steps a
  handle : ∀ hno file, hno ∉ released → fs.openFiles hno = some file →
    ∃ a, fs.world.cache.lookup file.ino = some a ∧ ¬ Freed steps a

variable {fs : CatFS σ} {steps : List (MetaAct × World σ × World σ)} {released : List HandleID}

/-- The steps of a run have the effects of their labels, and what was there when they were taken still is. -/
structure Traced (fs : CatFS σ) (steps : List (MetaAct × World σ × World σ)) : Prop where
  indexed : Indexed (fun _ => True) fs
  effect : ∀ e ∈ steps, Inv e.2.1.cache ∧ Effect e.1 e.2.1 e.2.2 ∧ Grow e.2.1.cache fs.world.cache

theorem FsReq.steps_effect (hfs : Indexed (fun _ => True) fs) (r : FsReq) : ∀ e ∈ r.steps opt st fs,
    Inv e.2.1.cache ∧ Effect e.1 e.2.1 e.2.2 ∧ Grow e.2.1.cache (endState (r.exec opt st fs)).world.cache := by
  cases r with
  | request fuel r =>
    have hmoves : Acts (fun _ => True) (fun _ => True) (r.prog opt st fuel) fun _ _ => True :=
      acts_request (fun _ => trivial) r
    obtain ⟨hsteps, -⟩ := hmoves.transitions (fun l s s' hs hr => hr.2.1.keeps hs) (s := fs.world) hfs.inv trivial
    intro e he
    obtain ⟨hm, ⟨-, heff⟩, -, hgrow⟩ := hsteps e he
    refine ⟨hm, heff, (heff.1.keeps hm).2.trans ?_⟩
    rw [FsReq.exec, runMeta, zoom]
    cases hr : (r.prog opt st fuel).run fs.world with
    | ok x w =>
      rw [hr] at hgrow
      exact hgrow
    | error x w =>
      rw [hr] at hgrow
      exact hgrow
  | _ => exact fun e he => absurd he List.not_mem_nil

theorem Mounted.traced (h : Mounted opt st fs steps released) : Traced fs steps := by
  induction h with
  | start => exact ⟨⟨.new opt _, (fun _ _ hf => by cases hf), fun _ _ _ => trivial⟩, fun _ he => absurd he List.not_mem_nil⟩
  | @request fs steps released _ r ih =>
    have hsound : Sound (fun _ => True) (fun _ => True) (r.exec opt st) fun _ _ => True := sound_request writes_true r
    obtain ⟨hindexed, hgrow⟩ := hsound.endState ih.indexed trivial
    refine ⟨hindexed, fun e he => ?_⟩
    rcases List.mem_append.mp he with hold | hnew
    · obtain ⟨hm, heff, hg⟩ := ih.effect e hold
      exact ⟨hm, heff, hg.trans hgrow⟩
    · exact r.steps_effect ih.indexed e hnew
  | outside _ hw ih =>
    refine ⟨⟨hw ▸ ih.indexed.inv, ?_, ih.indexed.writer⟩, ?_⟩
    · rw [hw]
      exact ih.indexed.file
    · rw [hw]
      exact ih.effect

/-- In every state that a mount reaches, the index and the handles are free of freed dentries exactly when
    `remove_child` has never found a child. -/
theorem unfreed_iff (h : Mounted opt st fs steps released) :
    Unfreed fs steps released ↔ ∀ e ∈ steps, FindsNoChild e.1 e.2.1.cache := by
  have ht := h.traced
  constructor
  · intro hu e he
    obtain ⟨hm, ⟨hc, -⟩, hgrow⟩ := ht.effect e he
    refine (frees_nothing_iff hc).mp fun a hf => ?_
    have hentry := hgrow.index _ _ (hm.index a (hf.allocated hm hc))
    exact hu.index _ a hentry ⟨e, he, hf⟩
  · intro hno
    have hnone : ∀ a, ¬ Freed steps a := by
      rintro a ⟨e, he, hf⟩
      exact (frees_nothing_iff (ht.effect e he).2.1.1).mpr (hno e he) a hf
    exact ⟨fun _ a _ => hnone a, fun hno file _ hf => (ht.indexed.file hno file hf).imp fun a ha => ⟨ha, hnone a⟩⟩

end

/-! ### Two runs -/

/-- The state after a request, and the steps it took added to those before. -/
def stepFs (x : CatFS Log × List (MetaAct × World Log × World Log)) (r : FsReq) :
    CatFS Log × List (MetaAct × World Log × World Log) :=
  (endState (r.exec ⟨0, 0, 60⟩ (s3Stor Log.client) x.1), x.2 ++ r.steps ⟨0, 0, 60⟩ (s3Stor Log.client) x.1)

/-- On a new mount over an empty bucket. -/
def runFs (reqs : List FsReq) : CatFS Log × List (MetaAct × World Log × World Log) :=
  reqs.foldl stepFs (.start ⟨0, 0, 60⟩ ⟨0, 0⟩ [] ⟨0, 0⟩ noGarbage, [])

theorem mounted_foldl (reqs : List FsReq) {x : CatFS Log × List (MetaAct × World Log × World Log)}
    {released : List HandleID} (h : Mounted ⟨0, 0, 60⟩ (s3Stor Log.client) x.1 x.2 released) :
    Mounted ⟨0, 0, 60⟩ (s3Stor Log.client) (reqs.foldl stepFs x).1 (reqs.foldl stepFs x).2
      (released ++ reqs.flatMap FsReq.releases) := by
  induction reqs generalizing x released with
  | nil =>
    rw [List.flatMap_nil, List.append_nil]
    exact h
  | cons r reqs ih =>
    rw [List.flatMap_cons, ← List.append_assoc]
    exact ih (h.request r)

theorem mounted_runFs (reqs : List FsReq) : Mounted ⟨0, 0, 60⟩ (s3Stor Log.client) (runFs reqs).1 (runFs reqs).2
    (reqs.flatMap FsReq.releases) :=
  mounted_foldl reqs (x := (.start ⟨0, 0, 60⟩ ⟨0, 0⟩ [] ⟨0, 0⟩ noGarbage, [])) (.start ⟨0, 0⟩ [] ⟨0, 0⟩ noGarbage)

/-- A file is created in the root and opened; the handle is not released. -/
def createAndOpen : List FsReq := [.request 1 (.create ROOT_INODE_ID ['f'] S_IFREG), .openfile 2 false]

/-- The label of a step that calls `remove_child`. -/
def removes (l : MetaAct) : Bool :=
  match l with
  | .erase .. | .sweep _ => true
  | _ => false

theorem unfreed_open : (((runFs createAndOpen).1.openFiles 0).map OpenFile.ino = some 2) ∧
    Unfreed (runFs createAndOpen).1 (runFs createAndOpen).2 [] := by
  refine ⟨by decide +kernel, (unfreed_iff (mounted_runFs createAndOpen)).mpr fun e he => ?_⟩
  have hnot : (runFs createAndOpen).2.all (fun e => !removes e.1) = true := by decide +kernel
  have hlabel := List.all_eq_true.mp hnot e he
  obtain ⟨l, s⟩ := e
  cases l <;> trivial

/-- The file is removed while it is open: the index keeps pointing to the freed dentry. -/
theorem freed_indexed : ∃ fs steps, Mounted ⟨0, 0, 60⟩ (s3Stor Log.client) fs steps [] ∧
    (fs.openFiles 0).map OpenFile.ino = some 2 ∧ fs.world.cache.lookup 2 = some 1 ∧ Freed steps 1 ∧
    ¬ Unfreed fs steps [] := by
  have hfreed : (runFs (createAndOpen ++ [.request 1 (.remove ROOT_INODE_ID ['f'])])).2.any (fun e =>
      decide (e.1 = .erase ROOT_INODE_ID ['f']) && decide ((e.2.1.cache.heap 0).getChild ['f'] = some 1) &&
      decide ((e.2.2.cache.heap 0).getChild ['f'] = none)) = true := by decide +kernel
  obtain ⟨⟨l, s, s'⟩, he, hf⟩ := List.any_eq_true.mp hfreed
  simp only [Bool.and_eq_true, decide_eq_true_eq] at hf
  obtain ⟨⟨rfl, hchild⟩, hgone⟩ := hf
  have hruns := mounted_runFs (createAndOpen ++ [.request 1 (.remove ROOT_INODE_ID ['f'])])
  have hmarked : Freed (runFs (createAndOpen ++ [.request 1 (.remove ROOT_INODE_ID ['f'])])).2 1 :=
    ⟨_, he, 0, ['f'], hchild, hgone⟩
  have hentry : (runFs (createAndOpen ++ [.request 1 (.remove ROOT_INODE_ID ['f'])])).1.world.cache.lookup 2 = some 1 := by
    decide +kernel
  exact ⟨_, _, hruns, by decide +kernel, hentry, hmarked, fun hu => hu.index 2 1 hentry hmarked⟩

end Catfs
