import Catfs.Theorems.DirLoads
import Catfs.Theorems.FuseReplies

/-! # Open directories

A handle takes its entries from the first listing that completes and keeps them. A listing that fails leaves it the two
entries for the directory itself, which the next read takes for the listing (`returned_after_failure`). -/

namespace Catfs

open Lib MetaM LocalMemMeta
open EStateM (Result)

namespace MetaImpl
variable {σ : Type} {st : Stor σ} {ino : InodeID} {a : Addr} {w w' : World σ} {fuel : Nat} {pre : Str}

/-! ### A listing -/

/-- Every page of the listing of `pre` from `marker` on arrives, holds names under `pre` alone, and the last of them
    comes within `fuel` turns. -/
def Listable (st : Stor σ) (pre : Str) : Nat → Str → σ → Prop
  | 0, _, _ => False
  | fuel + 1, marker, t => ∃ resp t', st.listObjects { delimiter := slash, pre, max := 1000, marker } t = .ok resp t' ∧
      (buildFtree pre resp).isSome ∧ (resp.isTrunc = true → Listable st pre fuel resp.nextMarker t')

theorem listable_iff {marker : Str} {t : σ} : Listable st pre fuel marker t ↔ (pageNodes st pre fuel marker t).isSome := by
  induction fuel generalizing marker t with
  | zero => exact ⟨False.elim, fun h => by cases h⟩
  | succ fuel ih =>
    rw [Listable, pageNodes]
    cases hlist : st.listObjects { delimiter := slash, pre, max := 1000, marker } t with
    | error e t' =>
      refine ⟨fun h => ?_, fun h => by cases h⟩
      obtain ⟨_, _, h, -⟩ := h
      cases h
    | ok resp t' =>
      have honly : (∃ resp' t'', (.ok resp t' : Result Err σ ListObjectsResp) = .ok resp' t'' ∧ (buildFtree pre resp').isSome ∧
          (resp'.isTrunc = true → Listable st pre fuel resp'.nextMarker t'')) ↔
          (buildFtree pre resp).isSome ∧ (resp.isTrunc = true → Listable st pre fuel resp.nextMarker t') := by
        refine ⟨fun h => ?_, fun h => ⟨resp, t', rfl, h⟩⟩
        obtain ⟨_, _, h, hrest⟩ := h
        obtain ⟨rfl, rfl⟩ := Result.ok.inj h
        exact hrest
      rw [honly, ih]
      cases hft : buildFtree pre resp with
      | none => simp only [hft, Option.isSome_none, Bool.false_eq_true, false_and]
      | some nodes => cases htr : resp.isTrunc <;> simp [hft, htr]

theorem refreshSubDentries_returns (hm : Inv w.cache) (ha : a < w.cache.heapNext) :
    (∃ w', (refreshSubDentries st fuel a).run w = .ok () w') ↔ Listable st (w.cache.dirPrefix a) fuel [] w.stor := by
  have hrefresh := run_refresh_dirNodes st fuel hm ha
  rw [listable_iff, ← dirNodes]
  cases hnodes : dirNodes st fuel a w with
  | none =>
    simp only [hnodes] at hrefresh
    obtain ⟨⟨e, w', hrun⟩, -⟩ := hrefresh
    rw [hrun]
    exact ⟨fun h => (by cases h.choose_spec), fun h => by cases h⟩
  | some nodes =>
    simp only [hnodes] at hrefresh
    obtain ⟨m₁, m', t', -, -, hrun, -⟩ := hrefresh
    exact iff_of_true ⟨_, hrun⟩ rfl

/-- The directory, when its children have to be listed, can be. -/
def CanList (st : Stor σ) (fuel : Nat) (a : Addr) (w : World σ) : Prop :=
  (!(w.cache.heap a).complete || (w.cache.heap a).isExpired w.now) = true →
    Listable st (w.cache.dirPrefix a) fuel [] w.stor

/-- A load of a known directory returns if and only if it can be listed. -/
theorem loadSubDentries_returns (hm : Inv w.cache) (ha : w.cache.lookup ino = some a) :
    (∃ ds w', (loadSubDentries st fuel ino).run w = .ok ds w') ↔ CanList st fuel a w := by
  rw [run_loadSubDentries ha, CanList, ← stale, ← refreshSubDentries_returns hm (hm.indexed _ _ ha).1]
  cases hstale : stale a w with
  | false => exact iff_of_true ⟨_, _, rfl⟩ fun h => by cases h
  | true =>
    rw [if_pos rfl]
    cases hrun : (refreshSubDentries st fuel a).run w with
    | ok _ w₁ =>
      rw [Prog.run_bind_ok hrun]
      exact iff_of_true ⟨_, _, run_listChildren⟩ fun _ => ⟨w₁, rfl⟩
    | error e w₁ =>
      rw [Prog.run_bind_error hrun]
      exact iff_of_false (fun h => by cases h.choose_spec.choose_spec) fun h => by cases (h rfl).choose_spec

/-- What a load returns are the children at its end. -/
theorem load_lists {ds : List Dirent} (h : (loadSubDentries st fuel ino).run w = .ok ds w') :
    ∃ a, w.cache.lookup ino = some a ∧ ds = w'.cache.listed a := by
  cases ha : w.cache.lookup ino with
  | none =>
    rw [run_loadSubDentries_none ha] at h
    cases h
  | some a =>
    rw [run_loadSubDentries ha] at h
    refine ⟨a, rfl, ?_⟩
    split at h
    · cases hrun : (refreshSubDentries st fuel a).run w with
      | error e w₁ =>
        rw [Prog.run_bind_error hrun] at h
        cases h
      | ok _ w₁ =>
        rw [Prog.run_bind_ok hrun, run_listChildren] at h
        obtain ⟨rfl, rfl⟩ := Result.ok.inj h
        rfl
    · obtain ⟨rfl, rfl⟩ := Result.ok.inj h
      rfl

end MetaImpl

open MetaImpl

namespace FuseAdapter
variable {σ : Type} {st : Stor σ} {hno : HandleID} {s s' : FuseAdapter σ} {dir : OpenDir} {fuel off size : Nat}

/-! ### Reads of a handle -/

@[simp] theorem openDirs_setDentries (dentries : List Dirent) :
    (s.setDentries hno dentries).openDirs hno = (s.openDirs hno).map fun dir => { dir with dentries } :=
  Function.update_self ..

theorem run_readDir_listed (h : s.openDirs hno = some dir) (hne : dir.dentries ≠ []) :
    readDir st fuel hno off size s = assign dir.dentries off size s := by
  have hget : (get : FuseM σ _) s = .ok s s := rfl
  rw [readDir, bind_ok hget, h]
  dsimp only
  rw [if_neg hne]
  rfl

theorem run_readDir_loads {dentries : List Dirent} {w : World σ} (h : s.openDirs hno = some dir) (hnil : dir.dentries = [])
    (hload : (loadSubDentries st fuel dir.ino).run s.catfs.world = .ok dentries w) :
    readDir st fuel hno off size s =
      assign dentries off size (setDentries { s with catfs := { s.catfs with world := w } } hno dentries) := by
  have hget : (get : FuseM σ _) s = .ok s s := rfl
  rw [readDir, bind_ok hget, h]
  dsimp only
  rw [if_pos hnil, bind_ok (run_loadDentries_ok hload)]

theorem run_readDir_unknown (h : s.openDirs hno = some dir) (hnil : dir.dentries = [])
    (hino : s.catfs.world.cache.lookup dir.ino = none) : readDir st fuel hno off size s = .error .enoent s := by
  have hget : (get : FuseM σ _) s = .ok s s := rfl
  have hload : loadDentries st fuel hno dir s = .error .enoent s := by
    simp only [loadDentries, onCatfs, CatFS.runMeta, zoom, run_loadSubDentries_none hino, hino]
  rw [readDir, bind_ok hget, h]
  dsimp only
  rw [if_pos hnil, bind_error hload]

/-- A load that fails after it found its directory leaves the handle two entries. -/
theorem run_readDir_fails {e : Err} {w : World σ} {a : Addr} (h : s.openDirs hno = some dir) (hnil : dir.dentries = [])
    (hino : s.catfs.world.cache.lookup dir.ino = some a)
    (hload : (loadSubDentries st fuel dir.ino).run s.catfs.world = .error e w) :
    readDir st fuel hno off size s =
      .error e (setDentries { s with catfs := { s.catfs with world := w } } hno (dots a)) := by
  have hget : (get : FuseM σ _) s = .ok s s := rfl
  have hl : loadDentries st fuel hno dir s =
      .error e (setDentries { s with catfs := { s.catfs with world := w } } hno (dots a)) := by
    simp only [loadDentries, onCatfs, CatFS.runMeta, zoom, hload, hino]
    rfl
  rw [readDir, bind_ok hget, h]
  dsimp only
  rw [if_pos hnil, bind_error hl]

theorem endState_assign (dentries : List Dirent) : endState (assign dentries off size s) = s := by
  rw [assign]
  cases slice dentries off size <;> rfl

theorem slice_of_assign {dentries ret : List Dirent} (h : assign dentries off size s = .ok ret s') :
    slice dentries off size = some ret := by
  rw [assign] at h
  cases hsl : slice dentries off size with
  | none =>
    rw [hsl] at h
    cases h
  | some ret' =>
    rw [hsl] at h
    obtain ⟨rfl, -⟩ := Result.ok.inj h
    rfl

/-- A read that returned took a range of the entries that the handle has now. -/
theorem readDir_ok {ret : List Dirent} (hdir : s.openDirs hno = some dir) (h : readDir st fuel hno off size s = .ok ret s') :
    (dir.dentries ≠ [] ∧ s' = s ∧ slice dir.dentries off size = some ret) ∨
    (dir.dentries = [] ∧ ∃ dentries w, (loadSubDentries st fuel dir.ino).run s.catfs.world = .ok dentries w ∧
      s' = setDentries { s with catfs := { s.catfs with world := w } } hno dentries ∧ slice dentries off size = some ret) := by
  have hassign : ∀ {s₁ : FuseAdapter σ} {dentries : List Dirent}, assign dentries off size s₁ = .ok ret s' →
      s' = s₁ ∧ slice dentries off size = some ret := by
    intro s₁ dentries hret
    have hend : endState (assign dentries off size s₁) = s₁ := endState_assign dentries
    rw [hret, endState_ok] at hend
    exact ⟨hend, slice_of_assign hret⟩
  by_cases hnil : dir.dentries = []
  · cases ha : s.catfs.world.cache.lookup dir.ino with
    | none =>
      rw [run_readDir_unknown hdir hnil ha] at h
      cases h
    | some a =>
      cases hload : (loadSubDentries st fuel dir.ino).run s.catfs.world with
      | error e w =>
        rw [run_readDir_fails hdir hnil ha hload] at h
        cases h
      | ok dentries w =>
        rw [run_readDir_loads hdir hnil hload] at h
        exact .inr ⟨hnil, dentries, w, rfl, hassign h⟩
  · rw [run_readDir_listed hdir hnil] at h
    exact .inl ⟨hnil, hassign h⟩

/-! ### Runs -/

/-- The states of an open directory and its handle, from the opening on: the reads of it, of which each is made in a
    state with `ok`, and any other steps, which leave the handle as it is. `ws` are the states of the metadata layer in
    which the reads began. -/
inductive DirRun (st : Stor σ) (hno : HandleID) (ok : Nat → FuseAdapter σ → Prop) : List (World σ) → FuseAdapter σ → Prop where
  | opened {s : FuseAdapter σ} {dir : OpenDir} (hinv : Inv s.catfs.world.cache) (h : s.openDirs hno = some dir)
      (hnil : dir.dentries = []) : DirRun st hno ok [] s
  | read {ws : List (World σ)} {s : FuseAdapter σ} (h : DirRun st hno ok ws s) (fuel off size : Nat) (hok : ok fuel s) :
      DirRun st hno ok (ws ++ [s.catfs.world]) (endState (readDir st fuel hno off size s))
  | other {ws : List (World σ)} {s s' : FuseAdapter σ} (h : DirRun st hno ok ws s) (hdir : s'.openDirs hno = s.openDirs hno)
      (hinv : Inv s'.catfs.world.cache) (hgrow : Grow s.catfs.world.cache s'.catfs.world.cache) : DirRun st hno ok ws s'

/-- `dentries` is what a load of `ino` made, begun in one of the states `ws`: `.`, `..` and the children at its end. -/
def Loaded (st : Stor σ) (ino : InodeID) (ws : List (World σ)) (dentries : List Dirent) : Prop :=
  ∃ w ∈ ws, ∃ fuel w' a, (loadSubDentries st fuel ino).run w = .ok dentries w' ∧ w.cache.lookup ino = some a ∧
    dentries = w'.cache.listed a

theorem Loaded.mono {ino : InodeID} {ws ws' : List (World σ)} {dentries : List Dirent} (h : Loaded st ino ws dentries)
    (hws : ∀ w ∈ ws, w ∈ ws') : Loaded st ino ws' dentries := by
  obtain ⟨w, hw, rest⟩ := h
  exact ⟨w, hws w hw, rest⟩

theorem Loaded.of_run {ino : InodeID} {ws : List (World σ)} {dentries : List Dirent} {w w' : World σ}
    (h : (loadSubDentries st fuel ino).run w = .ok dentries w') : Loaded st ino (ws ++ [w]) dentries := by
  obtain ⟨a, ha, hds⟩ := load_lists h
  exact ⟨w, List.mem_append_right _ (List.mem_singleton_self w), fuel, w', a, h, ha, hds⟩

/-- What a read of the directory is to do: return a range of the entries that a completed load made, or throw what its
    load throws and leave the handle without entries. -/
structure ReadsLoaded (st : Stor σ) (hno : HandleID) (ws : List (World σ)) (fuel off size : Nat) (s : FuseAdapter σ) : Prop where
  returned : ∀ ret s', readDir st fuel hno off size s = .ok ret s' → ∃ dir dentries, s.openDirs hno = some dir ∧
    Loaded st dir.ino (ws ++ [s.catfs.world]) dentries ∧ slice dentries off size = some ret
  failed : ∀ dir, s.openDirs hno = some dir → dir.dentries = [] →
    ∀ e w, (loadSubDentries st fuel dir.ino).run s.catfs.world = .error e w →
      ∃ s', readDir st fuel hno off size s = .error e s' ∧ s'.openDirs hno = some dir

/-- A handle without entries is of a directory that can be listed. -/
def CanRead (st : Stor σ) (hno : HandleID) (fuel : Nat) (s : FuseAdapter σ) : Prop :=
  ∀ dir a, s.openDirs hno = some dir → dir.dentries = [] → s.catfs.world.cache.lookup dir.ino = some a →
    CanList st fuel a s.catfs.world

theorem inv_loaded {dentries : List Dirent} {w : World σ} (hinv : Inv s.catfs.world.cache)
    (h : (loadSubDentries st fuel dir.ino).run s.catfs.world = .ok dentries w) : Inv w.cache := by
  have htame : Tame (loadSubDentries st fuel dir.ino) := tame_loadSubDentries
  have hkeep := htame.run hinv
  rw [h] at hkeep
  exact hkeep.1

/-- The entries of the handle are those of a completed load, once it has any. -/
theorem DirRun.loaded {ws : List (World σ)} (h : DirRun st hno (CanRead st hno) ws s) :
    Inv s.catfs.world.cache ∧ ∃ dir, s.openDirs hno = some dir ∧ (dir.dentries = [] ∨ Loaded st dir.ino ws dir.dentries) := by
  induction h with
  | @opened s dir hinv h hnil => exact ⟨hinv, dir, h, .inl hnil⟩
  | @read ws s _ fuel off size hok ih =>
    obtain ⟨hinv, dir, hdir, hloaded⟩ := ih
    have hmono : ∀ w ∈ ws, w ∈ ws ++ [s.catfs.world] := fun w hw => List.mem_append_left _ hw
    by_cases hnil : dir.dentries = []
    · cases ha : s.catfs.world.cache.lookup dir.ino with
      | none =>
        rw [run_readDir_unknown hdir hnil ha]
        exact ⟨hinv, dir, hdir, .inl hnil⟩
      | some a =>
        obtain ⟨dentries, w, hload⟩ := (loadSubDentries_returns hinv ha).mpr (hok dir a hdir hnil ha)
        rw [run_readDir_loads hdir hnil hload, endState_assign]
        refine ⟨inv_loaded hinv hload, { dir with dentries }, ?_, .inr (.of_run hload)⟩
        rw [openDirs_setDentries, hdir, Option.map_some]
    · rw [run_readDir_listed hdir hnil, endState_assign]
      exact ⟨hinv, dir, hdir, hloaded.imp_right fun hl => hl.mono hmono⟩
  | other _ hdir hinv _ ih =>
    obtain ⟨-, dir, hd, hloaded⟩ := ih
    exact ⟨hinv, dir, hdir.trans hd, hloaded⟩

/-- In a run whose reads are all of directories that can be listed, each read returns a range of what a completed load
    made; one whose load fails throws and leaves the handle without entries, so that the next read loads again. -/
theorem readDir_loaded {ws : List (World σ)} (h : DirRun st hno (CanRead st hno) ws s) (hok : CanRead st hno fuel s)
    (off size : Nat) : ReadsLoaded st hno ws fuel off size s := by
  obtain ⟨hinv, dir, hdir, hloaded⟩ := h.loaded
  refine ⟨fun ret s' hread => ?_, fun dir' hdir' hnil e w hload => ?_⟩
  · rcases readDir_ok hdir hread with ⟨hne, -, hslice⟩ | ⟨-, dentries, w, hload, -, hslice⟩
    · have hold := hloaded.resolve_left hne
      exact ⟨dir, dir.dentries, hdir, hold.mono fun w hw => List.mem_append_left _ hw, hslice⟩
    · exact ⟨dir, dentries, hdir, .of_run hload, hslice⟩
  · cases ha : s.catfs.world.cache.lookup dir'.ino with
    | none =>
      rw [run_loadSubDentries_none ha] at hload
      obtain ⟨rfl, -⟩ := Result.error.inj hload
      exact ⟨s, run_readDir_unknown hdir' hnil ha, hdir'⟩
    | some a =>
      obtain ⟨dentries, w', hreturns⟩ := (loadSubDentries_returns hinv ha).mpr (hok dir' a hdir' hnil ha)
      rw [hreturns] at hload
      cases hload

/-! ### A listing that fails -/

/-- The client of a log, whose listings all fail. -/
def noListing : S3Client Log := { Log.client with listObjects := fun _ log => .error (.other []) log }

/-- A new mount over `c`, with its root opened under the handle 0. -/
def openRoot (c : S3Client Log) (log : Log) : FuseAdapter Log :=
  endState (FuseReq.handler ⟨0, 0, 60⟩ (s3Stor c) ⟨List.length, List.length⟩ 0 (.opendir ROOT_INODE_ID)
    { catfs := .start ⟨0, 0, 60⟩ ⟨0, 0⟩ log ⟨0, 0⟩ noGarbage, openDirs := fun _ => none, replies := [] })

theorem inv_openRoot (c : S3Client Log) (log : Log) : Inv (openRoot c log).catfs.world.cache := Inv.new _ _

theorem openDirs_openRoot (c : S3Client Log) (log : Log) :
    (openRoot c log).openDirs 0 = some { ino := ROOT_INODE_ID, hno := 0, dentries := [] } := rfl

theorem dirRun_openRoot {ok : Nat → FuseAdapter Log → Prop} (c : S3Client Log) (log : Log) :
    DirRun (s3Stor c) 0 ok [] (openRoot c log) :=
  .opened (inv_openRoot c log) (openDirs_openRoot c log) rfl

theorem canRead_openRoot : CanRead (s3Stor Log.client) 0 1 (openRoot Log.client [(.putFile ['f'] [], true)]) := by
  intro dir a hdir _ ha _
  obtain rfl := Option.some.inj hdir
  obtain rfl := Option.some.inj ha
  exact ⟨_, _, run_listObjects (r := Log.listing [(.putFile ['f'] [], true)] (pageRequest [] [])) rfl, by decide +kernel,
    fun h => absurd h (by decide +kernel)⟩

theorem readDir_loaded_root : ReadsLoaded (s3Stor Log.client) 0 [] 1 0 10 (openRoot Log.client [(.putFile ['f'] [], true)]) :=
  readDir_loaded (dirRun_openRoot _ _) canRead_openRoot 0 10

/-- The bucket holds `f` and its listing fails. The first read throws, and the second returns `.` and `..` alone. -/
theorem returned_after_failure : ∃ e s' s'',
    readDir (s3Stor noListing) 1 0 0 10 (openRoot noListing [(.putFile ['f'] [], true)]) = .error e s' ∧
    readDir (s3Stor noListing) 1 0 0 10 s' = .ok (dots 0) s'' ∧
    ¬ ReadsLoaded (s3Stor noListing) 0 [] 1 0 10 (openRoot noListing [(.putFile ['f'] [], true)]) := by
  have hdir := openDirs_openRoot noListing [(.putFile ['f'] [], true)]
  have hino : (openRoot noListing [(.putFile ['f'] [], true)]).catfs.world.cache.lookup ROOT_INODE_ID = some 0 := rfl
  have hfail : ∃ e w, (loadSubDentries (s3Stor noListing) 1 ROOT_INODE_ID).run
      (openRoot noListing [(.putFile ['f'] [], true)]).catfs.world = .error e w := by
    cases hr : (loadSubDentries (s3Stor noListing) 1 ROOT_INODE_ID).run
      (openRoot noListing [(.putFile ['f'] [], true)]).catfs.world with
    | error e w => exact ⟨e, w, rfl⟩
    | ok dentries w =>
      obtain ⟨resp, t', hlist, -⟩ := (loadSubDentries_returns (inv_openRoot _ _) hino).mp ⟨dentries, w, hr⟩ rfl
      cases hlist
  obtain ⟨e, w, hload⟩ := hfail
  have hfirst : readDir (s3Stor noListing) 1 0 0 10 (openRoot noListing [(.putFile ['f'] [], true)]) = _ :=
    run_readDir_fails hdir rfl hino hload
  have hleft : (setDentries { openRoot noListing [(.putFile ['f'] [], true)] with
      catfs := { (openRoot noListing [(.putFile ['f'] [], true)]).catfs with world := w } } 0 (dots 0)).openDirs 0 =
      some { ino := ROOT_INODE_ID, hno := 0, dentries := dots 0 } := by
    rw [openDirs_setDentries]
    rfl
  refine ⟨_, _, _, hfirst, (run_readDir_listed hleft (List.cons_ne_nil _ _)).trans rfl, fun h => ?_⟩
  obtain ⟨s', hread, hopen⟩ := h.failed _ hdir rfl _ _ hload
  rw [hfirst] at hread
  obtain ⟨-, rfl⟩ := Result.error.inj hread
  rw [hleft] at hopen
  cases hopen

end FuseAdapter

end Catfs
