import Catfs.Lib.Cursor
import Catfs.Theorems.DirHandles

/-! # Enumerations of a directory

The handlers `readdir` and `readdirplus` number the entries of a reply from the offset of the request on. `readdirplus`
gives every entry its own position, so replies continue each other (`readdirplus_shows_entries`). `readdir` leaves out
`.` and `..` without counting them, so after it passed one its cookies name entries that it already gave. -/

namespace Catfs

open Lib MetaM MetaImpl LocalMemMeta
open EStateM (Result)

namespace FuseAdapter
variable {σ : Type} {st : Stor σ} {size : DirentSize} {hno : HandleID} {s s' : FuseAdapter σ} {fuel off : Nat}

/-! ### One request -/

/-- A `readdirplus` or a `readdir`. -/
structure DirRequest where
  plus : Bool
  limit : Nat
  off : Nat
  deriving DecidableEq, Repr

/-- The name is neither `.` nor `..`. -/
def named (name : Str) : Bool := name != ['.'] && name != ['.', '.']

/-- An entry as a reply shows it, and one of a handle. -/
def FuseEntry.key (e : FuseEntry) : Str × InodeID := (e.name, e.attr.ino)

def keyOf (m : LocalMemMeta) (d : Dirent) : Str × InodeID := (d.name, (m.heap d.inode).inode.ino)

/-- An entry of a buffer starts with a header of at least 24 bytes. -/
structure Headed (size : DirentSize) : Prop where
  direntry : ∀ name, 24 ≤ size.direntry name
  direntryPlus : ∀ name, 24 ≤ size.direntryPlus name

namespace DirRequest
variable (r : DirRequest)

def handler (st : Stor σ) (size : DirentSize) (fuel : Nat) (hno : HandleID) : FuseM σ Unit :=
  if r.plus then readdirplus st size fuel hno r.limit r.off else readdir st size fuel hno r.limit r.off

def entsize (size : DirentSize) : Str → Nat := if r.plus then size.direntryPlus else size.direntry

def shows (d : Dirent) : Bool := r.plus || named d.name

def attr (m : LocalMemMeta) (a : Addr) : Inode :=
  if r.plus then (m.heap a).inode else { Inode.new with ino := (m.heap a).inode.ino, mode := (m.heap a).inode.mode }

/-- The entries of the reply. -/
def fills (size : DirentSize) (m : LocalMemMeta) (dirents : List Dirent) : List FuseEntry :=
  fillEntries (r.entsize size) (r.attr m) r.off (dirents.filter r.shows) r.limit 0

variable {r}

theorem attr_ino (m : LocalMemMeta) (a : Addr) : (r.attr m a).ino = (m.heap a).inode.ino := by
  rw [attr]
  split <;> rfl

theorem headed_entsize (h : Headed size) (name : Str) : 24 ≤ r.entsize size name := by
  rw [entsize]
  split
  · exact h.direntryPlus name
  · exact h.direntry name

theorem handler_eq : r.handler st size fuel hno = catching catchStd (do
    let dirents ← readDir st fuel hno r.off r.limit
    let m := (← get).catfs.world.cache
    reply (.dir (r.fills size m dirents))) := by
  obtain ⟨plus, limit, off⟩ := r
  cases plus with
  | true =>
    have hall : ∀ dirents : List Dirent, dirents.filter (DirRequest.shows ⟨true, limit, off⟩) = dirents :=
      fun dirents => List.filter_eq_self.mpr fun _ _ => rfl
    simp only [handler, readdirplus, fills, hall]
    rfl
  | false => rfl

theorem run_handler_ok {dirents : List Dirent} (h : readDir st fuel hno r.off r.limit s = .ok dirents s') :
    r.handler st size fuel hno s =
      .ok () { s' with replies := s'.replies ++ [.dir (r.fills size s'.catfs.world.cache dirents)] } := by
  rw [handler_eq, catching_ok]
  rw [bind_ok h]
  rfl

/-- A reply with entries comes after a read that returned. -/
theorem handler_dir {es : List FuseEntry} (h : r.handler st size fuel hno s = .ok () s')
    (hreply : s'.replies = s.replies ++ [.dir es]) : ∃ dirents s₁, readDir st fuel hno r.off r.limit s = .ok dirents s₁ ∧
      es = r.fills size s₁.catfs.world.cache dirents ∧ s'.catfs = s₁.catfs ∧ s'.openDirs = s₁.openDirs := by
  cases hdir : s.openDirs hno with
  | none =>
    rw [handler_eq, catching_none (bind_error (run_readDir_none hdir)) rfl] at h
    cases h
  | some dir =>
    have hreads : ReadsDir st fuel dir r.off r.limit s (readDir st fuel hno r.off r.limit s) := run_readDir hdir
    cases hr : readDir st fuel hno r.off r.limit s with
    | ok dirents s₁ =>
      rw [hr] at hreads
      rw [run_handler_ok hr] at h
      obtain ⟨-, rfl⟩ := Result.ok.inj h
      refine ⟨dirents, s₁, rfl, ?_, rfl, rfl⟩
      simp only [hreads.1, List.append_cancel_left_eq, List.cons.injEq, FuseReply.dir.injEq, and_true] at hreply
      exact hreply.symm
    | error e s₁ =>
      rw [hr] at hreads
      rw [handler_eq] at h
      cases hc : catchStd e with
      | none =>
        rw [catching_none (bind_error hr) hc] at h
        cases h
      | some code =>
        rw [catching_some (bind_error hr) hc] at h
        obtain ⟨-, rfl⟩ := Result.ok.inj h
        simp [hreads.1] at hreply

end DirRequest

/-! ### Filling a buffer -/

/-- How many of the entries fit into `rem` bytes, one after the other. -/
def fitting (entsize : Str → Nat) : List Dirent → Nat → Nat
  | [], _ => 0
  | d :: rest, rem => if rem < entsize d.name then 0 else fitting entsize rest (rem - entsize d.name) + 1

section
variable {entsize : Str → Nat} {ds : List Dirent} {rem idx k : Nat} {attr : Addr → Inode} {m : LocalMemMeta}

theorem fitting_le : fitting entsize ds rem ≤ ds.length := by
  induction ds generalizing rem with
  | nil => exact Nat.le_refl _
  | cons d rest ih =>
    rw [fitting, List.length_cons]
    split
    · exact Nat.zero_le _
    · exact Nat.succ_le_succ ih

/-- An entry fits when those up to it do. -/
theorem lt_fitting : k < fitting entsize ds rem ↔ k < ds.length ∧ ((ds.take (k + 1)).map (entsize ·.name)).sum ≤ rem := by
  induction ds generalizing rem k with
  | nil => simp [fitting]
  | cons d rest ih =>
    rw [fitting, List.take_succ_cons, List.map_cons, List.sum_cons, List.length_cons]
    split
    · omega
    · cases k with
      | zero =>
        rw [List.take_zero, List.map_nil, List.sum_nil]
        omega
      | succ k =>
        rw [Nat.succ_lt_succ_iff, ih]
        omega

theorem fillEntries_keys (hattr : ∀ a, (attr a).ino = (m.heap a).inode.ino) :
    (fillEntries entsize attr off ds rem idx).map FuseEntry.key = (ds.map (keyOf m)).take (fitting entsize ds rem) := by
  induction ds generalizing rem idx with
  | nil => rfl
  | cons d rest ih =>
    rw [fillEntries, fitting]
    split
    · rfl
    · rw [List.map_cons, ih, List.map_cons, List.take_succ_cons, FuseEntry.key, keyOf, hattr]

theorem fillEntries_offs :
    (fillEntries entsize attr off ds rem idx).map FuseEntry.off = List.range' (off + idx + 1) (fitting entsize ds rem) := by
  induction ds generalizing rem idx with
  | nil => rfl
  | cons d rest ih =>
    rw [fillEntries, fitting]
    split
    · rfl
    · rw [List.map_cons, ih, List.range'_succ]
      rfl

end

/-! ### The range that a read takes -/

theorem slice_zero {dentries : List Dirent} {limit : Nat} : (slice dentries 0 limit).isSome := by
  rw [slice, if_neg (Nat.not_lt_zero _)]
  split
  · rfl
  · rw [if_neg (Nat.not_lt_zero _)]
    rfl

theorem slice_eq {dentries : List Dirent} {limit : Nat} (hoff : off ≤ dentries.length) (hlimit : limit < 2 ^ 63)
    (hlen : dentries.length < 2 ^ 63) : slice dentries off limit = some ((dentries.drop off).take limit) := by
  have hsum : u64 ((off : Int) + (limit : Int)) = off + limit := by
    rw [← Nat.cast_add]
    exact u64_natCast (by omega)
  rw [slice, hsum, if_neg (by omega)]
  split
  · rw [List.take_of_length_le]
    rw [List.length_drop]
    omega
  · rw [if_neg (by omega), Nat.add_sub_cancel_left]

/-! ### The entries of a handle -/

/-- The entries of a handle: none, or those of a listing made in an earlier cache, or what a listing that failed left. -/
def DirEntries (m : LocalMemMeta) (dentries : List Dirent) : Prop :=
  dentries = [] ∨ ∃ m₀ a, Inv m₀ ∧ a < m₀.heapNext ∧ Grow m₀ m ∧ (dentries = m₀.listed a ∨ dentries = dots a)

section
variable {m m' : LocalMemMeta} {dentries : List Dirent}

theorem DirEntries.mono (h : DirEntries m dentries) (hg : Grow m m') : DirEntries m' dentries := by
  rcases h with hnil | ⟨m₀, a, hm₀, ha, hgrow, hds⟩
  · exact .inl hnil
  · exact .inr ⟨m₀, a, hm₀, ha, hgrow.trans hg, hds⟩

theorem mem_listed_entries {a : Addr} {d : Dirent} (hm : Inv m) (ha : a < m.heapNext) (hd : d ∈ m.listed a) :
    d ∈ dots a ∨ (m.heap a).getChild d.name = some d.inode := by
  rcases List.mem_append.mp hd with hd | hd
  · exact .inl hd
  · obtain ⟨e, he, rfl⟩ := List.mem_map.mp hd
    have hch : (m.heap a).getChild e.1 = some e.2 := AList.mem_lookup_iff.mpr he
    refine .inr ?_
    rw [(hm.child a e.1 e.2 ha hch).2.2.1]
    exact hch

theorem DirEntries.allocated (h : DirEntries m dentries) {d : Dirent} (hd : d ∈ dentries) : d.inode < m.heapNext := by
  have hdots : ∀ a, d ∈ dots a → d.inode = a := by
    intro a hd
    simp only [dots, List.mem_cons, List.not_mem_nil, or_false] at hd
    rcases hd with rfl | rfl <;> rfl
  rcases h with rfl | ⟨m₀, a, hm₀, ha, hgrow, rfl | rfl⟩
  · cases hd
  · refine Nat.lt_of_lt_of_le ?_ hgrow.next
    rcases mem_listed_entries hm₀ ha hd with hd | hch
    · rw [hdots a hd]
      exact ha
    · exact (hm₀.child a d.name d.inode ha hch).2.1
  · rw [hdots a hd]
    exact Nat.lt_of_lt_of_le ha hgrow.next

/-- The names and inode numbers of the entries stay what they were. -/
theorem DirEntries.keys (h : DirEntries m dentries) (hg : Grow m m') : dentries.map (keyOf m') = dentries.map (keyOf m) :=
  List.map_congr_left fun d hd => congrArg (Prod.mk d.name) (hg.ino d.inode (h.allocated hd))

theorem names_listed {a : Addr} (hm : Inv m) (ha : a < m.heapNext) :
    (m.listed a).map Dirent.name = ['.'] :: ['.', '.'] :: (m.heap a).children.keys := by
  have hkeys : ((m.heap a).children.entries.map fun e => (m.heap e.2).name) = (m.heap a).children.entries.map Sigma.fst :=
    List.map_congr_left fun e he => (hm.child a e.1 e.2 ha (AList.mem_lookup_iff.mpr he)).2.2.1
  simp only [listed, dots, List.map_cons, List.map_map, Function.comp_def, List.cons_append, List.nil_append, AList.keys,
    List.keys, hkeys]

theorem DirEntries.names (h : DirEntries m dentries) : ∃ names : List Str, names.Nodup ∧
    (dentries = [] ∨ dentries.map Dirent.name = ['.'] :: ['.', '.'] :: names) := by
  rcases h with hnil | ⟨m₀, a, hm₀, ha, -, rfl | rfl⟩
  · exact ⟨[], List.nodup_nil, .inl hnil⟩
  · exact ⟨(m₀.heap a).children.keys, (m₀.heap a).children.keys_nodup, .inr (names_listed hm₀ ha)⟩
  · exact ⟨[], List.nodup_nil, .inr rfl⟩

/-- At most the handle's own two entries and two of its children are named `.` or `..`. -/
theorem DirEntries.dots_le (h : DirEntries m dentries) : (dentries.filter fun d => !named d.name).length ≤ 4 := by
  obtain ⟨names, hnodup, hnames⟩ := h.names
  rcases hnames with rfl | hnames
  · exact Nat.zero_le _
  · have hmap : (dentries.filter fun d => !named d.name).length = ((dentries.map Dirent.name).filter fun n => !named n).length := by
      rw [List.filter_map, List.length_map]
      rfl
    have hsub : (names.filter fun n => !named n) ⊆ [['.'], ['.', '.']] := by
      intro n hn
      have hdot := (List.mem_filter.mp hn).2
      simp only [named, Bool.not_and, Bool.or_eq_true, Bool.not_eq_true', bne_eq_false_iff_eq] at hdot
      simpa using hdot
    have hle := (List.subperm_of_subset (hnodup.filter _) hsub).length_le
    rw [hmap, hnames]
    simp only [List.filter_cons]
    split <;> split <;> simp only [List.length_cons, List.length_nil] at hle ⊢ <;> omega

theorem DirEntries.nodup_named (h : DirEntries m dentries) : ((dentries.map (keyOf m)).filter fun k => named k.1).Nodup := by
  obtain ⟨names, hnodup, hnames⟩ := h.names
  rcases hnames with rfl | hnames
  · exact List.nodup_nil
  · refine List.Nodup.of_map Prod.fst ?_
    have hfst : (((dentries.map (keyOf m)).filter fun k => named k.1).map Prod.fst) =
        (dentries.map Dirent.name).filter named := by
      rw [List.filter_map, List.filter_map, List.map_map]
      rfl
    rw [hfst, hnames]
    exact hnodup.filter _

end

variable (st fuel off) in
theorem held_readDir (limit : Nat) {dir : OpenDir} (hinv : Inv s.catfs.world.cache) (hdir : s.openDirs hno = some dir)
    (hheld : DirEntries s.catfs.world.cache dir.dentries) :
    Inv (endState (readDir st fuel hno off limit s)).catfs.world.cache ∧
      ∃ dir, (endState (readDir st fuel hno off limit s)).openDirs hno = some dir ∧
        DirEntries (endState (readDir st fuel hno off limit s)).catfs.world.cache dir.dentries := by
  by_cases hnil : dir.dentries = []
  · cases ha : s.catfs.world.cache.lookup dir.ino with
    | none =>
      rw [run_readDir_unknown hdir hnil ha]
      exact ⟨hinv, dir, hdir, .inl hnil⟩
    | some a =>
      have halloc := (hinv.indexed _ _ ha).1
      have htame : Tame (loadSubDentries st fuel dir.ino) := tame_loadSubDentries
      have hkeep := htame.run hinv
      cases hload : (loadSubDentries st fuel dir.ino).run s.catfs.world with
      | ok dentries w =>
        rw [hload] at hkeep
        obtain ⟨b, hb, rfl⟩ := load_lists hload
        rw [run_readDir_loads hdir hnil hload, endState_assign]
        refine ⟨hkeep.1, { dir with dentries := w.cache.listed b }, ?_, .inr ⟨w.cache, b, hkeep.1, ?_, .refl _, .inl rfl⟩⟩
        · rw [openDirs_setDentries, hdir, Option.map_some]
        · exact Nat.lt_of_lt_of_le (hinv.indexed _ _ hb).1 hkeep.2.next
      | error e w =>
        rw [hload] at hkeep
        rw [run_readDir_fails hdir hnil ha hload]
        refine ⟨hkeep.1, { dir with dentries := dots a }, ?_, .inr ⟨_, a, hinv, halloc, hkeep.2, .inr rfl⟩⟩
        rw [endState_error, openDirs_setDentries, hdir, Option.map_some]
  · rw [run_readDir_listed hdir hnil, endState_assign]
    exact ⟨hinv, dir, hdir, hheld⟩

theorem DirRun.held {ok : Nat → FuseAdapter σ → Prop} {ws : List (World σ)} (h : DirRun st hno ok ws s) :
    Inv s.catfs.world.cache ∧ ∃ dir, s.openDirs hno = some dir ∧ DirEntries s.catfs.world.cache dir.dentries := by
  induction h with
  | @opened s dir hinv h hnil => exact ⟨hinv, dir, h, .inl hnil⟩
  | @read ws s _ fuel off size _ ih =>
    obtain ⟨hinv, dir, hdir, hheld⟩ := ih
    exact held_readDir st fuel off size hinv hdir hheld
  | other _ hdir hinv hgrow ih =>
    obtain ⟨-, dir, hd, hheld⟩ := ih
    exact ⟨hinv, dir, hdir.trans hd, hheld.mono hgrow⟩

/-! ### Runs of requests -/

namespace DirRequest

/-- What the request does with the entries of the handle: it pulls as many as fit from its offset on. -/
def pull (size : DirentSize) (dentries : List Dirent) (r : DirRequest) : Pull (Str × InodeID) where
  shows k := r.plus || named k.1
  cursor := r.off
  count := fitting (r.entsize size) (((dentries.drop r.off).take r.limit).filter r.shows) r.limit

/-- The buffer has room for the next entry. -/
def HasRoom (size : DirentSize) (dentries : List Dirent) (r : DirRequest) : Prop :=
  ∀ d, ((dentries.drop r.off).filter r.shows).head? = some d → r.entsize size d.name ≤ r.limit

section
variable {r : DirRequest} {m : LocalMemMeta} {dentries : List Dirent}

theorem visible_pull : (r.pull size dentries).visible (dentries.map (keyOf m)) =
    ((dentries.drop r.off).filter r.shows).map (keyOf m) := by
  rw [Pull.visible, ← List.map_drop, List.filter_map]
  rfl

variable (r dentries) in
theorem shown_isPrefix : ((dentries.drop r.off).take r.limit).filter r.shows <+: (dentries.drop r.off).filter r.shows :=
  (List.take_prefix _ _).filter _

theorem count_pull_le : (r.pull size dentries).count ≤ ((r.pull size dentries).visible (dentries.map (keyOf m))).length := by
  rw [visible_pull, List.length_map]
  exact fitting_le.trans (shown_isPrefix r dentries).length_le

/-- The entries of the reply are those that the request pulls. -/
theorem fills_page : (r.fills size m ((dentries.drop r.off).take r.limit)).map FuseEntry.key =
    (r.pull size dentries).page (dentries.map (keyOf m)) := by
  obtain ⟨rest, hrest⟩ := shown_isPrefix r dentries
  have hle : (r.pull size dentries).count ≤ ((((dentries.drop r.off).take r.limit).filter r.shows).map (keyOf m)).length := by
    rw [List.length_map]
    exact fitting_le
  rw [fills, fillEntries_keys (attr_ino m), Pull.page, visible_pull, ← hrest, List.map_append,
    List.take_append_of_le_length hle]
  rfl

variable (size r m dentries) in
theorem fills_offs : (r.fills size m ((dentries.drop r.off).take r.limit)).map FuseEntry.off =
    List.range' (r.off + 1) (r.pull size dentries).count := fillEntries_offs

theorem last_off {es : List FuseEntry} {e : FuseEntry}
    (h : es ++ [e] = r.fills size m ((dentries.drop r.off).take r.limit)) : e.off = r.off + (r.pull size dentries).count := by
  have hoffs := fills_offs size r m dentries
  rw [← h, List.map_append] at hoffs
  have hcount := congrArg List.length hoffs
  rw [List.length_append, List.length_map, List.length_range', List.map_singleton, List.length_singleton] at hcount
  rw [← hcount, List.range'_concat] at hoffs
  have hlast := (List.append_inj' hoffs rfl).2
  rw [List.map_singleton, List.singleton_inj] at hlast
  omega

end

end DirRequest

/-- An enumeration of the directory open under `hno`, begun after any earlier use of the handle: its requests so far, the
    offset of the next one, which is the cookie of the last entry, and the entries of the replies. Other requests may
    come in between. Vectors and buffers are smaller than `2 ^ 63`. -/
inductive Enumerates (st : Stor σ) (size : DirentSize) (hno : HandleID) (ok : Nat → FuseAdapter σ → Prop) :
    FuseAdapter σ → List DirRequest → Nat → List FuseEntry → Prop where
  | start {ws : List (World σ)} {s : FuseAdapter σ} (h : DirRun st hno ok ws s) : Enumerates st size hno ok s [] 0 []
  | next {s s' : FuseAdapter σ} {rs : List DirRequest} {off : Nat} {shown es : List FuseEntry} {r : DirRequest} {e : FuseEntry}
      (h : Enumerates st size hno ok s rs off shown) (fuel : Nat) (hoff : r.off = off) (hlimit : r.limit < 2 ^ 63)
      (hlen : ∀ dir, s'.openDirs hno = some dir → dir.dentries.length < 2 ^ 63)
      (hrun : r.handler st size fuel hno s = .ok () s') (hreply : s'.replies = s.replies ++ [.dir (es ++ [e])]) :
      Enumerates st size hno ok s' (rs ++ [r]) e.off (shown ++ (es ++ [e]))
  | other {s s' : FuseAdapter σ} {rs : List DirRequest} {off : Nat} {shown : List FuseEntry}
      (h : Enumerates st size hno ok s rs off shown) (hdir : s'.openDirs hno = s.openDirs hno)
      (hinv : Inv s'.catfs.world.cache) (hgrow : Grow s.catfs.world.cache s'.catfs.world.cache) :
      Enumerates st size hno ok s' rs off shown

/-- The request that an empty reply answers, with room for the next entry. -/
structure LastRequest (st : Stor σ) (size : DirentSize) (hno : HandleID) (s : FuseAdapter σ) (off fuel : Nat) (r : DirRequest)
    (s' : FuseAdapter σ) : Prop where
  off : r.off = off
  limit : r.limit < 2 ^ 63
  len : ∀ dir, s'.openDirs hno = some dir → dir.dentries.length < 2 ^ 63
  run : r.handler st size fuel hno s = .ok () s'
  reply : s'.replies = s.replies ++ [.dir []]
  room : ∀ dir, s'.openDirs hno = some dir → r.HasRoom size dir.dentries

/-- The enumeration as a walk through the entries of the handle. -/
structure Walks (size : DirentSize) (m : LocalMemMeta) (dentries : List Dirent) (rs : List DirRequest) (off : Nat)
    (shown : List FuseEntry) : Prop where
  held : DirEntries m dentries
  loaded : rs ≠ [] → dentries ≠ []
  walk : Walk (dentries.map (keyOf m)) (rs.map (DirRequest.pull size dentries)) off (shown.map FuseEntry.key)
  offs : shown.map FuseEntry.off = List.range' 1 off

namespace Walks
variable {m m' : LocalMemMeta} {dentries : List Dirent} {rs : List DirRequest} {shown : List FuseEntry} {r : DirRequest}

theorem mono (h : Walks size m dentries rs off shown) (hg : Grow m m') : Walks size m' dentries rs off shown where
  held := h.held.mono hg
  loaded := h.loaded
  walk := by
    rw [h.held.keys hg]
    exact h.walk
  offs := h.offs

theorem off_le (h : Walks size m dentries rs off shown) : off ≤ dentries.length := by
  have hle := h.walk.cursor_le
  rwa [List.length_map] at hle

/-- Nothing was shown of a handle without entries. -/
theorem of_nil (h : Walks size m [] rs off shown) : rs = [] ∧ off = 0 ∧ shown = [] := by
  obtain rfl : rs = [] := by
    by_contra hne
    exact h.loaded hne rfl
  have hoff := h.off_le
  have hoffs := congrArg List.length h.offs
  obtain rfl : off = 0 := Nat.le_zero.mp hoff
  rw [List.length_map] at hoffs
  exact ⟨rfl, rfl, List.length_eq_zero_iff.mp hoffs⟩

theorem next (h : Walks size m dentries rs off shown) (hne : dentries ≠ []) (hoff : r.off = off) {es : List FuseEntry}
    {e : FuseEntry} (hes : es ++ [e] = r.fills size m ((dentries.drop r.off).take r.limit)) :
    Walks size m dentries (rs ++ [r]) e.off (shown ++ (es ++ [e])) where
  held := h.held
  loaded _ := hne
  walk := by
    rw [DirRequest.last_off hes, hoff, List.map_append, List.map_append, hes, DirRequest.fills_page]
    exact .pull h.walk hoff DirRequest.count_pull_le
  offs := by
    rw [List.map_append, h.offs, hes, DirRequest.fills_offs, DirRequest.last_off hes, hoff, Nat.add_comm off 1,
      List.range'_append_1]

end Walks

section
variable {ok : Nat → FuseAdapter σ → Prop} {rs : List DirRequest} {shown : List FuseEntry} {r : DirRequest}

/-- A read of the enumeration returns the entries from the offset on, and the handle has entries after it. -/
theorem Walks.read {dir : OpenDir} {dirents : List Dirent} (hinv : Inv s.catfs.world.cache) (hdir : s.openDirs hno = some dir)
    (hw : Walks size s.catfs.world.cache dir.dentries rs off shown) (hoff : r.off = off) (hlimit : r.limit < 2 ^ 63)
    (hread : readDir st fuel hno r.off r.limit s = .ok dirents s')
    (hlen : ∀ dir, s'.openDirs hno = some dir → dir.dentries.length < 2 ^ 63) : ∃ dir', s'.openDirs hno = some dir' ∧
      Inv s'.catfs.world.cache ∧ dir'.dentries ≠ [] ∧ Walks size s'.catfs.world.cache dir'.dentries rs off shown ∧
        dirents = (dir'.dentries.drop r.off).take r.limit := by
  have hrange : ∀ {dentries : List Dirent}, slice dentries r.off r.limit = some dirents → off ≤ dentries.length →
      dentries.length < 2 ^ 63 → dirents = (dentries.drop r.off).take r.limit := by
    intro dentries hslice hle hshort
    rw [slice_eq (hoff ▸ hle) hlimit hshort, Option.some.injEq] at hslice
    exact hslice.symm
  rcases readDir_ok hdir hread with ⟨hne, rfl, hslice⟩ | ⟨hnil, dentries, w, hload, hs', hslice⟩
  · exact ⟨dir, hdir, hinv, hne, hw, hrange hslice hw.off_le (hlen dir hdir)⟩
  · obtain ⟨rfl, rfl, rfl⟩ : rs = [] ∧ off = 0 ∧ shown = [] := (hnil ▸ hw).of_nil
    have hheld := held_readDir st fuel r.off r.limit hinv hdir hw.held
    rw [hread, endState_ok] at hheld
    obtain ⟨hinv', dir', hdir', hheld'⟩ := hheld
    have hopen : s'.openDirs hno = some { dir with dentries } := by
      rw [hs', openDirs_setDentries, hdir, Option.map_some]
    rw [hopen, Option.some.injEq] at hdir'
    subst hdir'
    have hne : dentries ≠ [] := by
      obtain ⟨b, -, hds⟩ := load_lists hload
      rw [hds]
      exact List.cons_ne_nil _ _
    exact ⟨_, hopen, hinv', hne, ⟨hheld', fun _ => hne, .start, rfl⟩, hrange hslice (Nat.zero_le _) (hlen _ hopen)⟩

/-- What a reply with entries shows of the handle. -/
theorem Walks.reply {dir : OpenDir} {es : List FuseEntry} (hinv : Inv s.catfs.world.cache) (hdir : s.openDirs hno = some dir)
    (hw : Walks size s.catfs.world.cache dir.dentries rs off shown) (hoff : r.off = off) (hlimit : r.limit < 2 ^ 63)
    (hlen : ∀ dir, s'.openDirs hno = some dir → dir.dentries.length < 2 ^ 63)
    (hrun : r.handler st size fuel hno s = .ok () s') (hreply : s'.replies = s.replies ++ [.dir es]) :
    ∃ dir', s'.openDirs hno = some dir' ∧ Inv s'.catfs.world.cache ∧ dir'.dentries ≠ [] ∧
      Walks size s'.catfs.world.cache dir'.dentries rs off shown ∧
      es = r.fills size s'.catfs.world.cache ((dir'.dentries.drop r.off).take r.limit) := by
  obtain ⟨dirents, s₁, hread, hes, hcatfs, hopen⟩ := DirRequest.handler_dir hrun hreply
  obtain ⟨dir', hdir', hinv', hne, hw', hdirents⟩ := hw.read hinv hdir hoff hlimit hread (by rwa [← hopen])
  rw [← hcatfs] at hinv' hw' hes
  rw [← hopen] at hdir'
  exact ⟨dir', hdir', hinv', hne, hw', hdirents ▸ hes⟩

theorem Enumerates.walks (h : Enumerates st size hno ok s rs off shown) : Inv s.catfs.world.cache ∧
    ∃ dir, s.openDirs hno = some dir ∧ Walks size s.catfs.world.cache dir.dentries rs off shown := by
  induction h with
  | start h =>
    obtain ⟨hinv, dir, hdir, hheld⟩ := h.held
    exact ⟨hinv, dir, hdir, hheld, fun h => absurd rfl h, .start, rfl⟩
  | next _ fuel hoff hlimit hlen hrun hreply ih =>
    obtain ⟨hinv, dir, hdir, hw⟩ := ih
    obtain ⟨dir', hdir', hinv', hne, hw', hes⟩ := hw.reply hinv hdir hoff hlimit hlen hrun hreply
    exact ⟨hinv', dir', hdir', hw'.next hne hoff hes⟩
  | other _ hdir hinv hgrow ih =>
    obtain ⟨-, dir, hd, hw⟩ := ih
    exact ⟨hinv, dir, hdir.trans hd, hw.mono hgrow⟩

/-- At the end of an enumeration no entry is left that its last request shows. -/
theorem LastRequest.walks (hsize : Headed size) (hend : LastRequest st size hno s off fuel r s')
    (h : Enumerates st size hno ok s rs off shown) : ∃ dir, s'.openDirs hno = some dir ∧
      Walks size s'.catfs.world.cache dir.dentries rs off shown ∧ (dir.dentries.drop off).filter r.shows = [] := by
  obtain ⟨hinv, dir, hdir, hw⟩ := h.walks
  obtain ⟨dir', hdir', -, -, hw', hes⟩ := hw.reply hinv hdir hend.off hend.limit hend.len hend.run hend.reply
  refine ⟨dir', hdir', hw', ?_⟩
  have hnone : fitting (r.entsize size) (((dir'.dentries.drop r.off).take r.limit).filter r.shows) r.limit = 0 := by
    have hlen := congrArg List.length (DirRequest.fills_offs size r s'.catfs.world.cache dir'.dentries)
    rw [← hes, List.map_nil, List.length_range'] at hlen
    exact hlen.symm
  rw [← hend.off]
  by_contra hne
  obtain ⟨d, rest, hvisible⟩ := List.exists_cons_of_ne_nil hne
  have hroom := hend.room dir' hdir' d (by rw [hvisible]; rfl)
  have h24 := DirRequest.headed_entsize (r := r) hsize d.name
  -- Too few entries are left out to fill the range.
  have hskipped : ((dir'.dentries.drop r.off).filter fun d => !r.shows d).length < r.limit := by
    have hsub : ((dir'.dentries.drop r.off).filter fun d => !r.shows d).Sublist (dir'.dentries.filter fun d => !named d.name) := by
      refine .trans (List.monotone_filter_right _ fun d hd => ?_) ((List.drop_sublist _ _).filter _)
      simp only [DirRequest.shows, Bool.not_or, Bool.and_eq_true] at hd
      exact hd.2
    have hle := hsub.length_le.trans hw'.held.dots_le
    omega
  obtain ⟨d', rest', hfirst⟩ := List.exists_cons_of_ne_nil (filter_take_ne_nil hne hskipped)
  obtain ⟨t, ht⟩ := DirRequest.shown_isPrefix r dir'.dentries
  rw [hfirst, hvisible, List.cons_append] at ht
  obtain ⟨rfl, -⟩ := List.cons.inj ht
  rw [hfirst, fitting, if_neg (by omega)] at hnone
  cases hnone

end

/-! ### Enumerations by `readdirplus` -/

section
variable {ok : Nat → FuseAdapter σ → Prop} {rs : List DirRequest} {shown : List FuseEntry} {r : DirRequest}

theorem DirRun.weaken {ok' : Nat → FuseAdapter σ → Prop} {ws : List (World σ)} (h : DirRun st hno ok ws s)
    (hok : ∀ fuel s, ok fuel s → ok' fuel s) : DirRun st hno ok' ws s := by
  induction h with
  | opened hinv h hnil => exact .opened hinv h hnil
  | read _ fuel off size hs ih => exact .read ih fuel off size (hok _ _ hs)
  | other _ hdir hinv hgrow ih => exact .other ih hdir hinv hgrow

/-- When no earlier load failed, the entries of the handle are those of a completed load. -/
theorem Enumerates.loaded (h : Enumerates st size hno ok s rs off shown) (hok : ∀ fuel s, ok fuel s → CanRead st hno fuel s) :
    ∃ dir, s.openDirs hno = some dir ∧ (dir.dentries = [] ∨ ∃ ws, Loaded st dir.ino ws dir.dentries) := by
  induction h with
  | start h =>
    obtain ⟨-, dir, hdir, hloaded⟩ := (h.weaken hok).loaded
    exact ⟨dir, hdir, hloaded.imp_right fun hl => ⟨_, hl⟩⟩
  | @next s s' _ _ _ _ r _ h fuel _ _ _ hrun hreply ih =>
    obtain ⟨dir, hdir, hloaded⟩ := ih
    obtain ⟨dirents, s₁, hread, -, -, hopen⟩ := DirRequest.handler_dir hrun hreply
    rw [hopen]
    rcases readDir_ok hdir hread with ⟨-, rfl, -⟩ | ⟨-, dentries, w, hload, rfl, -⟩
    · exact ⟨dir, hdir, hloaded⟩
    · have hlisted : Loaded st dir.ino [s.catfs.world] dentries := List.nil_append [s.catfs.world] ▸ .of_run hload
      refine ⟨{ dir with dentries }, ?_, .inr ⟨_, hlisted⟩⟩
      rw [openDirs_setDentries, hdir, Option.map_some]
  | other _ hdir _ _ ih =>
    obtain ⟨dir, hd, hloaded⟩ := ih
    exact ⟨dir, hdir.trans hd, hloaded⟩

/-- The range of the next request lies inside the entries. -/
theorem Enumerates.inRange (h : Enumerates st size hno ok s rs off shown) (fuel : Nat) {limit : Nat} (hlimit : limit < 2 ^ 63)
    (hlen : ∀ dir dentries, s.openDirs hno = some dir → entries st fuel dir s = some dentries → dentries.length < 2 ^ 63) :
    InRange st fuel s hno off limit := by
  obtain ⟨-, dir, hdir, hw⟩ := h.walks
  refine ⟨dir, hdir, fun dentries hentries => ?_⟩
  by_cases hnil : dir.dentries = []
  · obtain ⟨-, rfl, -⟩ := (hnil ▸ hw).of_nil
    exact slice_zero
  · rw [entries, if_neg hnil, Option.some.injEq] at hentries
    subst hentries
    have hshort : dir.dentries.length < 2 ^ 63 := hlen dir dir.dentries hdir (if_neg hnil)
    rw [slice_eq hw.off_le hlimit hshort]
    rfl

/-- Over any store, the replies to `readdirplus` requests that follow the cookies show the entries of the handle in order
    and once, each with its position as the cookie, and no range begins past the end. The empty reply comes when all were
    shown. The entries are `.`, `..` and the children when no load failed before. -/
theorem readdirplus_shows_entries (hsize : Headed size) (h : Enumerates st size hno ok s rs off shown)
    (hplus : ∀ r ∈ rs, r.plus = true) : ∃ dir, s.openDirs hno = some dir ∧ off ≤ dir.dentries.length ∧
      shown.map FuseEntry.key = (dir.dentries.take off).map (keyOf s.catfs.world.cache) ∧
      shown.map FuseEntry.off = List.range' 1 off ∧
      ((∀ fuel s, ok fuel s → CanRead st hno fuel s) → dir.dentries = [] ∨ ∃ ws, Loaded st dir.ino ws dir.dentries) ∧
      (∀ fuel limit, limit < 2 ^ 63 → (∀ dentries, entries st fuel dir s = some dentries → dentries.length < 2 ^ 63) →
        InRange st fuel s hno off limit) ∧
      ∀ fuel r s', r.plus = true → LastRequest st size hno s off fuel r s' → ∃ dir', s'.openDirs hno = some dir' ∧
        shown.map FuseEntry.key = dir'.dentries.map (keyOf s'.catfs.world.cache) := by
  have hinOrder : ∀ {m : LocalMemMeta} {dentries : List Dirent}, Walks size m dentries rs off shown →
      shown.map FuseEntry.key = (dentries.take off).map (keyOf m) := by
    intro m dentries hw
    rw [List.map_take]
    refine hw.walk.inOrder fun t ht => ?_
    obtain ⟨r, hr, rfl⟩ := List.mem_map.mp ht
    rintro ⟨k, -, hk⟩
    simp [DirRequest.pull, hplus r hr] at hk
  obtain ⟨-, dir, hdir, hw⟩ := h.walks
  refine ⟨dir, hdir, hw.off_le, hinOrder hw, hw.offs, fun hok => ?_, fun fuel limit hlimit hlen => ?_, fun fuel r s' hr hend => ?_⟩
  · obtain ⟨dir', hdir', hloaded⟩ := h.loaded hok
    rw [hdir, Option.some.injEq] at hdir'
    exact hdir' ▸ hloaded
  · refine h.inRange fuel hlimit fun dir' dentries hdir' hentries => hlen dentries ?_
    rw [hdir, Option.some.injEq] at hdir'
    exact hdir' ▸ hentries
  · obtain ⟨dir', hdir', hw', hrest⟩ := hend.walks hsize h
    have hall : (dir'.dentries.drop off).filter r.shows = dir'.dentries.drop off :=
      List.filter_eq_self.mpr fun d _ => by rw [DirRequest.shows, hr, Bool.true_or]
    refine ⟨dir', hdir', ?_⟩
    rw [hinOrder hw', List.take_of_length_le (List.drop_eq_nil_iff.mp (hall ▸ hrest))]

end

/-! ### Enumerations by both handlers -/

/-- From its offset on, an entry named `.` or `..` stands before one that the buffer has room for. -/
def DirRequest.PassesDot (size : DirentSize) (dentries : List Dirent) (r : DirRequest) : Prop :=
  ∃ pre d post, dentries.drop r.off = pre ++ d :: post ∧ named d.name = true ∧ (∃ e ∈ pre, named e.name = false) ∧
    (((pre.filter fun e => named e.name) ++ [d]).map fun e => size.direntry e.name).sum ≤ r.limit

section
variable {ok : Nat → FuseAdapter σ → Prop} {rs : List DirRequest} {shown : List FuseEntry} {r : DirRequest}
  {m : LocalMemMeta} {dentries : List Dirent}

theorem skips_pull : (r.pull size dentries).Skips (dentries.map (keyOf m)) ↔
    ∃ d ∈ (dentries.drop r.off).take (r.pull size dentries).count, r.shows d = false := by
  rw [Pull.Skips, ← List.map_drop, ← List.map_take]
  constructor
  · rintro ⟨k, hk, hshow⟩
    obtain ⟨d, hd, rfl⟩ := List.mem_map.mp hk
    exact ⟨d, hd, hshow⟩
  · rintro ⟨d, hd, hshow⟩
    exact ⟨keyOf m d, List.mem_map_of_mem hd, hshow⟩

theorem headed_sum (hsize : Headed size) (ds : List Dirent) : 24 * ds.length ≤ (ds.map fun e => size.direntry e.name).sum := by
  induction ds with
  | nil => exact Nat.zero_le _
  | cons d rest ih =>
    have hd := hsize.direntry d.name
    rw [List.map_cons, List.sum_cons, List.length_cons]
    omega

/-- The entry after `pre` is in the range and fits when those up to it do. -/
theorem lt_count_pull {pre post : List Dirent} {d : Dirent} (hsize : Headed size) (hheld : DirEntries m dentries)
    (hr : r.plus = false) (hsplit : dentries.drop r.off = pre ++ d :: post) (hd : named d.name = true) :
    (pre.filter r.shows).length < (r.pull size dentries).count ↔
      (((pre.filter fun e => named e.name) ++ [d]).map fun e => size.direntry e.name).sum ≤ r.limit := by
  have hshows : r.shows = fun e => named e.name := by
    funext e
    rw [DirRequest.shows, hr, Bool.false_or]
  have hentsize : r.entsize size = size.direntry := by
    rw [DirRequest.entsize, hr]
    rfl
  obtain ⟨t, ht⟩ := DirRequest.shown_isPrefix r dentries
  have hwhole : (dentries.drop r.off).filter r.shows = pre.filter r.shows ++ d :: post.filter r.shows := by
    rw [hsplit, List.filter_append, List.filter_cons_of_pos]
    rw [hshows]
    exact hd
  have hfirst : (pre.filter r.shows).length < (((dentries.drop r.off).take r.limit).filter r.shows).length →
      (((dentries.drop r.off).take r.limit).filter r.shows).take ((pre.filter r.shows).length + 1) = pre.filter r.shows ++ [d] := by
    intro hlt
    rw [← List.take_append_of_le_length hlt, ht, hwhole, List.take_append]
    simp
  rw [DirRequest.pull, lt_fitting, hentsize, ← hshows]
  constructor
  · rintro ⟨hlt, hsum⟩
    rwa [hfirst hlt] at hsum
  · intro hsum
    have hlt : (pre.filter r.shows).length < (((dentries.drop r.off).take r.limit).filter r.shows).length := by
      have hdots : (pre.filter fun e => !named e.name).length ≤ 4 := by
        have hsub : pre.Sublist dentries := by
          refine .trans ?_ (List.drop_sublist r.off dentries)
          rw [hsplit]
          exact List.sublist_append_left _ _
        exact (hsub.filter _).length_le.trans hheld.dots_le
      have hlength : pre.length = (pre.filter r.shows).length + (pre.filter fun e => !named e.name).length := by
        rw [hshows]
        exact List.length_eq_length_filter_add _
      have hbytes : 24 * ((pre.filter r.shows).length + 1) ≤ r.limit := by
        refine Nat.le_trans ?_ hsum
        have hsum24 := headed_sum hsize (pre.filter r.shows ++ [d])
        rwa [List.length_append, List.length_singleton] at hsum24
      have htake : (dentries.drop r.off).take r.limit = pre ++ d :: post.take (r.limit - pre.length - 1) := by
        obtain ⟨k, hk⟩ : ∃ k, r.limit = pre.length + (k + 1) := ⟨r.limit - pre.length - 1, by omega⟩
        rw [hsplit, hk, List.take_length_add_append, List.take_succ_cons]
        congr 3
        omega
      rw [htake, List.filter_append, List.filter_cons_of_pos (by rw [hshows]; exact hd), List.length_append, List.length_cons]
      omega
    exact ⟨hlt, by rwa [hfirst hlt]⟩

theorem skips_iff (hsize : Headed size) (hheld : DirEntries m dentries) (hr : r.plus = false) :
    (r.pull size dentries).Skips (dentries.map (keyOf m)) ↔ r.PassesDot size dentries := by
  have hcount : (r.pull size dentries).count ≤ ((dentries.drop r.off).filter r.shows).length :=
    fitting_le.trans (DirRequest.shown_isPrefix _ _).length_le
  have hshow : ∀ d, r.shows d = named d.name := fun d => by rw [DirRequest.shows, hr, Bool.false_or]
  rw [skips_pull, exists_take_iff hcount]
  constructor
  · rintro ⟨pre, d, post, hsplit, hd, ⟨e, he, hdot⟩, hlt⟩
    rw [hshow] at hd hdot
    exact ⟨pre, d, post, hsplit, hd, ⟨e, he, hdot⟩, (lt_count_pull hsize hheld hr hsplit hd).mp hlt⟩
  · rintro ⟨pre, d, post, hsplit, hd, ⟨e, he, hdot⟩, hsum⟩
    exact ⟨pre, d, post, hsplit, by rwa [hshow], ⟨e, he, by rwa [hshow]⟩, (lt_count_pull hsize hheld hr hsplit hd).mpr hsum⟩

/-- At the end of an enumeration by any of the two handlers, each entry of the handle other than `.` and `..` was shown
    exactly once if and only if no `readdir` request passed a `.` or `..` on the way to an entry that it showed. -/
theorem readdir_once_iff (hsize : Headed size) (h : Enumerates st size hno ok s rs off shown)
    (hend : LastRequest st size hno s off fuel r s') : ∃ dir, s'.openDirs hno = some dir ∧
      ((∀ d ∈ dir.dentries, named d.name = true →
        (shown.map FuseEntry.key).count (keyOf s'.catfs.world.cache d) = 1) ↔
      ∀ r ∈ rs, r.plus = false → ¬ r.PassesDot size dir.dentries) := by
  obtain ⟨dir, hdir, hw, hrest⟩ := hend.walks hsize h
  have honce := hw.walk.once_iff (q := fun k => named k.1) (fun k hk => ?_) hw.held.nodup_named fun t ht => ?_
  · refine ⟨dir, hdir, ?_⟩
    rw [List.forall_mem_map, List.forall_mem_map] at honce
    refine Iff.trans ⟨honce.mp, honce.mpr⟩ (forall₂_congr fun u hu => ?_)
    cases hplus : u.plus with
    | true =>
      refine ⟨(fun _ h => by cases h), fun _ => ?_⟩
      rintro ⟨k, -, hk⟩
      simp [DirRequest.pull, hplus] at hk
    | false =>
      rw [skips_iff hsize hw.held hplus]
      exact ⟨fun h _ => h, fun h => h rfl⟩
  · rw [← List.map_drop] at hk
    obtain ⟨d, hd, rfl⟩ := List.mem_map.mp hk
    have hhidden := List.filter_eq_nil_iff.mp hrest d hd
    simp only [DirRequest.shows, Bool.or_eq_true, not_or, Bool.not_eq_true] at hhidden
    exact hhidden.2
  · obtain ⟨u, -, rfl⟩ := List.mem_map.mp ht
    cases hplus : u.plus with
    | true =>
      right
      intro k
      simp [DirRequest.pull, hplus]
    | false =>
      left
      funext k
      simp [DirRequest.pull, hplus]

end

/-! ### A directory with one file -/

/-- The sizes of libfuse for the names used here. -/
def entrySizes : DirentSize := ⟨fun _ => 32, fun _ => 160⟩

theorem headed_entrySizes : Headed entrySizes := ⟨fun _ => Nat.le_of_ble_eq_true rfl, fun _ => Nat.le_of_ble_eq_true rfl⟩

/-- The requests on the root of a bucket that holds `f`. -/
def enumerate (rs : List DirRequest) : FuseAdapter Log :=
  rs.foldl (fun s r => endState (r.handler (s3Stor Log.client) entrySizes 1 0 s))
    (openRoot Log.client [(.putFile ['f'] [], true)])

def fileEntry (off : Nat) : FuseEntry :=
  { name := ['f'], attr := { Inode.new with ino := 2, mode := S_IFREG ||| 0o644#32 }, off }

def rootEntry (name : Str) (off : Nat) : FuseEntry :=
  { name, attr := { Inode.new with ino := ROOT_INODE_ID, mode := S_IFDIR ||| 0o766#32 }, off }

theorem dentries_of_map {dentries : List Dirent} (h : (s.openDirs hno).map OpenDir.dentries = some dentries) (dir : OpenDir)
    (hdir : s.openDirs hno = some dir) : dir.dentries = dentries := by
  rw [hdir, Option.map_some, Option.some.injEq] at h
  exact h

/-- A request that made its reply. -/
def Replied (s : FuseAdapter Log) (r : DirRequest) (es : List FuseEntry) : Prop :=
  (match r.handler (s3Stor Log.client) entrySizes 1 0 s with
    | .ok _ _ => true
    | .error _ _ => false) = true ∧
  (endState (r.handler (s3Stor Log.client) entrySizes 1 0 s)).replies = s.replies ++ [.dir es] ∧
  ((endState (r.handler (s3Stor Log.client) entrySizes 1 0 s)).openDirs 0).map OpenDir.dentries =
    some [⟨['.'], 0⟩, ⟨['.', '.'], 0⟩, ⟨['f'], 1⟩]

instance (s : FuseAdapter Log) (r : DirRequest) (es : List FuseEntry) : Decidable (Replied s r es) :=
  inferInstanceAs (Decidable (_ ∧ _ ∧ _))

namespace Replied
variable {s : FuseAdapter Log} {r : DirRequest} {es shown : List FuseEntry} {e : FuseEntry} {rs : List DirRequest}

theorem run (h : Replied s r es) : r.handler (s3Stor Log.client) entrySizes 1 0 s =
    .ok () (endState (r.handler (s3Stor Log.client) entrySizes 1 0 s)) := by
  have hok := h.1
  cases hr : r.handler (s3Stor Log.client) entrySizes 1 0 s with
  | ok _ _ => rfl
  | error _ _ =>
    rw [hr] at hok
    cases hok

theorem len (h : Replied s r es) (dir : OpenDir)
    (hdir : (endState (r.handler (s3Stor Log.client) entrySizes 1 0 s)).openDirs 0 = some dir) :
    dir.dentries.length < 2 ^ 63 := by
  rw [dentries_of_map h.2.2 dir hdir]
  decide

theorem next (hrep : Replied s r (es ++ [e])) (hoff : r.off = off) (hlimit : r.limit < 2 ^ 63)
    (h : Enumerates (s3Stor Log.client) entrySizes 0 (CanRead (s3Stor Log.client) 0) s rs off shown) :
    Enumerates (s3Stor Log.client) entrySizes 0 (CanRead (s3Stor Log.client) 0)
      (endState (r.handler (s3Stor Log.client) entrySizes 1 0 s)) (rs ++ [r]) e.off (shown ++ (es ++ [e])) :=
  .next h 1 hoff hlimit hrep.len hrep.run hrep.2.1

end Replied

theorem enumerates_start : Enumerates (s3Stor Log.client) entrySizes 0 (CanRead (s3Stor Log.client) 0) (enumerate []) [] 0 [] :=
  .start (dirRun_openRoot _ _)

theorem enumerates_plus : Enumerates (s3Stor Log.client) entrySizes 0 (CanRead (s3Stor Log.client) 0)
    (enumerate [⟨true, 4096, 0⟩]) [⟨true, 4096, 0⟩] 3 [rootEntry ['.'] 1, rootEntry ['.', '.'] 2, fileEntry 3] := by
  have hreply : Replied (enumerate []) ⟨true, 4096, 0⟩ ([rootEntry ['.'] 1, rootEntry ['.', '.'] 2] ++ [fileEntry 3]) := by
    decide +kernel
  exact hreply.next rfl (by decide) enumerates_start

theorem Replied.ends {s : FuseAdapter Log} {r : DirRequest} (h : Replied s r []) (hoff : r.off = off) (hlimit : r.limit < 2 ^ 63)
    (hroom : r.HasRoom entrySizes [⟨['.'], 0⟩, ⟨['.', '.'], 0⟩, ⟨['f'], 1⟩]) :
    LastRequest (s3Stor Log.client) entrySizes 0 s off 1 r (endState (r.handler (s3Stor Log.client) entrySizes 1 0 s)) where
  off := hoff
  limit := hlimit
  len := h.len
  run := h.run
  reply := h.2.1
  room dir hdir := by
    rw [dentries_of_map h.2.2 dir hdir]
    exact hroom

/-- One request shows all three entries, and the next one ends the enumeration. -/
theorem readdirplus_shows_root : ∃ dir, (enumerate [⟨true, 4096, 0⟩, ⟨true, 4096, 3⟩]).openDirs 0 = some dir ∧
    [rootEntry ['.'] 1, rootEntry ['.', '.'] 2, fileEntry 3].map FuseEntry.key =
      dir.dentries.map (keyOf (enumerate [⟨true, 4096, 0⟩, ⟨true, 4096, 3⟩]).catfs.world.cache) := by
  have hreply : Replied (enumerate [⟨true, 4096, 0⟩]) ⟨true, 4096, 3⟩ [] := by decide +kernel
  obtain ⟨_, _, _, _, _, _, _, hends⟩ := readdirplus_shows_entries headed_entrySizes enumerates_plus (by decide)
  obtain ⟨dir, hdir, hkeys⟩ := hends 1 ⟨true, 4096, 3⟩ _ rfl (hreply.ends rfl (by decide) fun d hd => by cases hd)
  exact ⟨dir, hdir, hkeys⟩

/-- Each of three `readdir` requests that follow the cookies shows the file, and a fourth ends the enumeration. -/
theorem enumerates_readdir : Enumerates (s3Stor Log.client) entrySizes 0 (CanRead (s3Stor Log.client) 0)
    (enumerate [⟨false, 4096, 0⟩, ⟨false, 4096, 1⟩, ⟨false, 4096, 2⟩])
    [⟨false, 4096, 0⟩, ⟨false, 4096, 1⟩, ⟨false, 4096, 2⟩] 3 [fileEntry 1, fileEntry 2, fileEntry 3] := by
  have h₁ : Replied (enumerate []) ⟨false, 4096, 0⟩ ([] ++ [fileEntry 1]) := by decide +kernel
  have h₂ : Replied (enumerate [⟨false, 4096, 0⟩]) ⟨false, 4096, 1⟩ ([] ++ [fileEntry 2]) := by decide +kernel
  have h₃ : Replied (enumerate [⟨false, 4096, 0⟩, ⟨false, 4096, 1⟩]) ⟨false, 4096, 2⟩ ([] ++ [fileEntry 3]) := by
    decide +kernel
  exact h₃.next rfl (by decide) (h₂.next rfl (by decide) (h₁.next rfl (by decide) enumerates_start))

/-- The file is shown three times. -/
theorem readdir_repeats : ∃ rs off shown s s' r, Enumerates (s3Stor Log.client) entrySizes 0 (CanRead (s3Stor Log.client) 0)
    s rs off shown ∧ LastRequest (s3Stor Log.client) entrySizes 0 s off 1 r s' ∧ ∃ dir d, s'.openDirs 0 = some dir ∧ d ∈ dir.dentries ∧
      named d.name = true ∧ (shown.map FuseEntry.key).count (keyOf s'.catfs.world.cache d) = 3 := by
  have hreply : Replied (enumerate [⟨false, 4096, 0⟩, ⟨false, 4096, 1⟩, ⟨false, 4096, 2⟩]) ⟨false, 4096, 3⟩ [] := by
    decide +kernel
  have hend := hreply.ends rfl (by decide) fun d hd => by cases hd
  obtain ⟨dir, hdir, hdentries⟩ := Option.map_eq_some_iff.mp hreply.2.2
  refine ⟨_, _, _, _, _, _, enumerates_readdir, hend, dir, ⟨['f'], 1⟩, hdir, ?_, by decide, by decide +kernel⟩
  rw [hdentries]
  decide

/-- Two `readdirplus` requests, of which the second ends the enumeration, show the file once. -/
theorem readdirplus_once_root : ∃ dir, (enumerate [⟨true, 4096, 0⟩, ⟨true, 4096, 3⟩]).openDirs 0 = some dir ∧
    ∀ d ∈ dir.dentries, named d.name = true →
      ([rootEntry ['.'] 1, rootEntry ['.', '.'] 2, fileEntry 3].map FuseEntry.key).count
        (keyOf (enumerate [⟨true, 4096, 0⟩, ⟨true, 4096, 3⟩]).catfs.world.cache d) = 1 := by
  have hreply : Replied (enumerate [⟨true, 4096, 0⟩]) ⟨true, 4096, 3⟩ [] := by decide +kernel
  obtain ⟨dir, hdir, hiff⟩ := readdir_once_iff headed_entrySizes enumerates_plus
    (hreply.ends rfl (by decide) fun d hd => by cases hd)
  refine ⟨dir, hdir, hiff.mpr fun r hr hplus => ?_⟩
  rw [List.mem_singleton.mp hr] at hplus
  cases hplus

end FuseAdapter

end Catfs
