import Catfs.Lib.Caught
import Catfs.Theorems.ListingEnds
import Catfs.Theorems.StdErrors
import Catfs.Theorems.Survives

/-! # What requests throw among others

Whatever other requests do between two steps of a request, no null pointer is followed, no walk up the tree and no sweep runs
on without end, and a listing ends. So what a request throws is a `std::exception`, as long as no sweep has a child to erase
from the map that it walks over (`interleaved_errors`). A dentry that was freed still stands in the heap here; which ones are
is the matter of `Freed`. -/

namespace Catfs

open Lib MetaM LocalMemMeta
open EStateM (Result)

namespace MetaImpl
variable {ι σ α : Type} [DecidableEq ι] {c : S3Client σ} {st : Stor σ} {view : σ → Bucket} {opt : MetaOpt} {pino ino : InodeID}
  {name : Str} {a p : Addr} {i : ι} {T : Hist σ → Prop} {K : Hist σ → Prop} {L : LocalMemMeta → Prop} {l : MetaAct}

/-- An exception that the handlers of FUSE catch, unless the steps were as `T` says. -/
def Harmless (T : Hist σ → Prop) (e : Err) (hist : Hist σ) : Prop := e.isStdException = true ∨ T hist

/-- The thread `i` among others: from a cache with `L`, it returns with `Q` or throws what is harmless. What is known of its
    steps stays known. -/
abbrev SaneAmong (T : Hist σ → Prop) (i : ι) (K : Hist σ → Prop) (L : LocalMemMeta → Prop) (q : MetaM σ α) (Q : α → LocalMemMeta → Prop) :
    Prop :=
  q.Tries CacheInv Grown i (fun hist s => K hist ∧ L s.cache) (fun r hist s => K hist ∧ Q r s.cache) (Harmless T)

/-- A step `l` leads from what is known of the steps to `K'`. -/
def Passes (K K' : Hist σ → Prop) (l : MetaAct) : Prop := ∀ hist s, K hist → K' (hist ++ [(l, s)])

/-! ### The steps -/

theorem among_step {f : EStateM Err (World σ) α} {K' : Hist σ → Prop} {Q : α → LocalMemMeta → Prop}
    (hl : Passes K K' l) (hf : Tame (Prog.lift l f)) (hQ : ∀ r, Lasting (Q r))
    (h : ∀ s, CacheInv s → L s.cache → match f s with
      | .ok r s' => Q r s'.cache
      | .error e _ => e.isStdException = true) :
    (Prog.lift l f).Tries CacheInv Grown i (fun hist s => K hist ∧ L s.cache) (fun r hist s => K' hist ∧ Q r s.cache) (Harmless T) := by
  refine Prog.tries_lift (fun r _ s s' hg hs => ⟨hs.1, hQ r _ _ hg.grow hs.2⟩) fun hist s hs hk => ⟨?_, ?_⟩
  · obtain ⟨hinv, hgrow⟩ := hf.2.1.endState hs trivial
    exact ⟨hinv, hs, hinv, hgrow⟩
  · have hstep := h s hs hk.2
    cases hr : f s with
    | ok r s' =>
      rw [hr] at hstep
      exact ⟨hl _ _ hk.1, hstep⟩
    | error e s' =>
      rw [hr] at hstep
      exact .inl hstep

theorem among_cache {f : Timespec → LocalM α} {Q : α → LocalMemMeta → Prop} (hl : Passes K K l) (hk : ∀ now, LocalMemMeta.Kept (f now))
    (hQ : ∀ r, Lasting (Q r)) (h : ∀ now m, m.Inv → L m → match f now m with
      | .ok r m' => Q r m'
      | .error e _ => e.isStdException = true) : SaneAmong T i K L (cache l f : MetaM σ α) Q := by
  refine among_step hl (tame_cache hk) hQ fun s hs hL => ?_
  have hstep := h s.now s.cache hs hL
  rw [onCache, zoom]
  cases hr : f s.now s.cache with
  | ok r m' =>
    rw [hr] at hstep
    exact hstep
  | error e m' =>
    rw [hr] at hstep
    exact hstep

/-- A step that only looks at the cache. -/
theorem among_read {f : Timespec → LocalM α} {Q : α → LocalMemMeta → Prop} (hl : Passes K K l) (hk : ∀ now, LocalMemMeta.Kept (f now))
    (hQ : ∀ r, Lasting (Q r)) (h : ∀ now m, m.Inv → L m → ∃ r, f now m = .ok r m ∧ Q r m) :
    SaneAmong T i K L (cache l f : MetaM σ α) Q := by
  refine among_cache hl hk hQ fun now m hm hL => ?_
  obtain ⟨r, hr, hQ⟩ := h now m hm hL
  rw [hr]
  exact hQ

theorem among_call {f : EStateM Err σ α} {K' : Hist σ → Prop} (hl : Passes K K' l) (hL : Lasting L)
    (he : ∀ t e t', f t = .error e t' → e.isStdException = true) :
    (call l f).Tries CacheInv Grown i (fun hist s => K hist ∧ L s.cache) (fun _ hist s => K' hist ∧ L s.cache) (Harmless T) := by
  refine among_step (Q := fun _ => L) hl tame_call (fun _ => hL) fun s hs h => ?_
  rw [zoom]
  cases hr : f s.stor with
  | ok r t => exact h
  | error e t => exact he _ _ _ hr

theorem among_getDentry (hl : Passes K K (.getDentry ino)) (hL : Lasting L) : SaneAmong T i K L (getDentry ino : MetaM σ _) fun r m =>
    (∀ a, r = some a → m.lookup ino = some a ∧ a < m.heapNext) ∧ L m := by
  refine among_read hl (fun _ => kept_getDentry) (fun r m m' hg h => ⟨fun a ha => ?_, hL m m' hg h.2⟩) fun now m hm h =>
    ⟨_, rfl, fun a ha => ⟨ha, (hm.indexed _ _ ha).1⟩, h⟩
  obtain ⟨hlookup, halloc⟩ := h.1 a ha
  exact ⟨hg.index _ _ hlookup, Nat.lt_of_lt_of_le halloc hg.next⟩

theorem among_readDentry (hl : Passes K K (.read a)) (hL : Lasting L) (ha : ∀ m, L m → a < m.heapNext) :
    SaneAmong T i K L (readDentry a : MetaM σ _) fun d m => Opened d.inode.ino a m ∧ L m :=
  among_read hl (fun _ => kept_load) (fun _ => lasting_and lasting_opened hL) fun _ m hm h =>
    ⟨_, rfl, ⟨hm.index a (ha m h), ha m h⟩, h⟩

/-- The same, where nothing is made of the number in it. -/
theorem among_peek (hl : Passes K K (.read a)) (hL : Lasting L) : SaneAmong T i K L (readDentry a : MetaM σ _) fun _ => L :=
  among_read hl (fun _ => kept_load) (fun _ => hL) fun _ _ _ h => ⟨_, rfl, h⟩

theorem among_fullPath (hl : Passes K K (.read a)) (hL : Lasting L) (ha : ∀ m, L m → a < m.heapNext) :
    SaneAmong T i K L (fullPath a : MetaM σ _) fun _ => L := by
  refine among_read hl (fun _ => kept_getFullPath) (fun _ => hL) fun _ m hm h => ?_
  obtain ⟨path, hpath⟩ := fullPath_some hm (ha m h)
  exact ⟨path, run_getFullPath hpath, h⟩

theorem among_pathWithSlash (hl : Passes K K (.read a)) (hL : Lasting L) (ha : ∀ m, L m → a < m.heapNext) :
    SaneAmong T i K L (pathWithSlash a : MetaM σ _) fun _ => L :=
  among_read hl (fun _ => kept_getFullPathWithSlash) (fun _ => hL) fun _ m hm h => ⟨_, run_getFullPathWithSlash hm (ha m h), h⟩

theorem among_listChildren (hl : Passes K K (.read a)) : SaneAmong T i K L (listChildren a : MetaM σ _) fun _ _ => True :=
  (among_read (Q := fun _ _ => True) hl (fun _ => kept_childrenList) (fun _ => lasting_true) fun _ _ _ _ => ⟨_, rfl, trivial⟩).bind
    fun _ => Prog.tries_pure fun _ _ _ hs => hs

theorem among_fact {φ : Prop} {q : MetaM σ α} {Q : α → LocalMemMeta → Prop} (h : φ → SaneAmong T i K L q Q) :
    SaneAmong T i K (fun m => φ ∧ L m) q Q :=
  (Prog.tries_fact h).pre fun _ _ _ hs => ⟨hs.2.1, hs.1, hs.2.2⟩

theorem among_exists {γ : Type} {L : γ → LocalMemMeta → Prop} {q : MetaM σ α} {Q : α → LocalMemMeta → Prop}
    (h : ∀ x, SaneAmong T i K (L x) q Q) : SaneAmong T i K (fun m => ∃ x, L x m) q Q :=
  (Prog.tries_exists h).pre fun _ _ _ hs => hs.2.imp fun _ hx => ⟨hs.1, hx⟩

/-! ### Lookups -/

theorem passes_true : Passes (fun _ : Hist σ => True) (fun _ => True) l := fun _ _ h => h

/-- A lookup, a creation or a removal: none of its steps counts. -/
abbrev Among (T : Hist σ → Prop) (i : ι) (L : LocalMemMeta → Prop) (q : MetaM σ α) (Q : α → LocalMemMeta → Prop) : Prop :=
  SaneAmong T i (fun _ => True) L q Q

theorem among_incTtl (hL : Lasting L) : Among T i L (incTtl opt a : MetaM σ _) fun _ => L :=
  among_cache passes_true (fun _ => kept_store Mild.incTtl) (fun _ => hL) fun _ _ _ h => hL _ _ (.set Mild.incTtl) h

theorem among_headResp (hL : Lasting L) : Among T i L (headResp : MetaM σ _) fun _ => L :=
  among_step passes_true tame_headResp (fun _ => hL) fun _ _ h => h

theorem among_isExpired (hL : Lasting L) : Among T i L (isExpired a : MetaM σ _) fun _ => L :=
  among_step passes_true tame_isExpired (fun _ => hL) fun _ _ h => h

theorem among_updateInode {u : InodeUpdateAttr} (hL : Lasting L) : Among T i L (updateInode ino u : MetaM σ _) fun _ => L := by
  refine among_cache passes_true (fun _ => kept_updateInode) (fun _ => hL) fun _ m hm h => ?_
  cases hino : m.lookup ino with
  | some b =>
    rw [LocalMemMeta.run_updateInode hino]
    exact hL _ _ (.set Mild.apply) h
  | none =>
    rw [LocalMemMeta.run_updateInode_none hino]
    rfl

theorem among_insert {f : Timespec → LocalM Addr} (hk : ∀ now, LocalMemMeta.Kept (f now)) (hf : MakesChild pino name f) (hL : Lasting L)
    (hp : ∀ m, L m → Opened pino p m) : Among T i L (cache (.insert pino name) f : MetaM σ _) fun d m => L m ∧ d < m.heapNext := by
  refine among_cache passes_true hk (fun _ => lasting_and hL lasting_alloc) fun now m hm h => ?_
  rcases hf now m hm with ⟨q, inode, -, -, hrun⟩ | ⟨e, m', hnone, -⟩
  · have hkeep := hk now m hm trivial
    rw [hrun] at hkeep ⊢
    exact ⟨hL _ _ hkeep.2.1 h, Nat.lt_succ_self _⟩
  · rw [(hp m h).1] at hnone
    cases hnone

/-- A dentry is made for the answer. -/
theorem among_make {f : Timespec → LocalM Addr} {g : Addr → α} {Q : α → LocalMemMeta → Prop} (hk : ∀ now, LocalMemMeta.Kept (f now))
    (hf : MakesChild pino name f) (hL : Lasting L) (hp : ∀ m, L m → Opened pino p m)
    (hQ : ∀ d m, L m → d < m.heapNext → Q (g d) m) : Among T i L (do
      let d ← cache (.insert pino name) f
      incTtl opt d
      pure (g d) : MetaM σ _) Q :=
  (among_insert hk hf hL hp).bind fun d => (among_incTtl (lasting_and hL lasting_alloc)).bind fun _ =>
    Prog.tries_pure fun _ _ _ hs => ⟨hs.1, hQ d _ hs.2.1 hs.2.2⟩

theorem among_addVirtualDir :
    Among T i (Opened pino p) (addVirtualDir opt p name : MetaM σ _) fun d m => Opened pino p m ∧ d < m.heapNext := by
  have hmake : ∀ {d : Dentry}, Among T i (fun m => Opened d.inode.ino p m ∧ Opened pino p m) (do
      let b ← cache (.insert d.inode.ino name) fun now => do
        let inode ← LocalMemMeta.createNewInode now d.inode.mode d.inode.gid d.inode.uid
        LocalMemMeta.createDentry d.inode.ino name inode
      incTtl opt b
      pure b : MetaM σ _) fun b m => Opened pino p m ∧ b < m.heapNext := by
    intro d
    exact among_make (g := id) (fun _ => kept_createNew) makes_new (lasting_and lasting_opened lasting_opened) (fun _ h => h.1)
      fun _ _ h hb => ⟨h.2, hb⟩
  exact (among_readDentry passes_true lasting_opened fun _ h => h.2).bind fun _ => hmake

/-- What a lookup leaves behind: its directory open, and the dentry it reT in the heap. -/
def Responded (pino : InodeID) (r : Option Addr) (m : LocalMemMeta) : Prop :=
  (∃ p, Opened pino p m) ∧ ∀ a, r = some a → a < m.heapNext

theorem responded_some {d : Addr} {m : LocalMemMeta} (hp : Opened pino p m) (hd : d < m.heapNext) : Responded pino (some d) m :=
  ⟨⟨p, hp⟩, fun _ ha => Option.some.inj ha ▸ hd⟩

theorem among_newKey {mode : Mode} : Among T i (Opened pino p) (newKey p name mode : MetaM σ _) fun _ => Opened pino p := by
  have hkey : ∀ {isRoot : Bool}, Among T i (Opened pino p) (fileKey p isRoot name : MetaM σ _) fun _ => Opened pino p := by
    refine .ite (Prog.tries_pure fun _ _ _ hs => hs) ?_
    exact (among_fullPath passes_true lasting_opened fun _ h => h.2).bind fun _ => Prog.tries_pure fun _ _ _ hs => hs
  exact (among_peek passes_true lasting_opened).bind fun _ => hkey.bind fun _ => Prog.tries_pure fun _ _ _ hs => hs

section
variable (hst : st.ThrowsStd)
include hst

theorem among_headFile {key : Str} {resp : HeadFileResp} (hL : Lasting L) : Among T i L (headFile st key resp) fun _ => L :=
  among_call passes_true hL fun _ _ _ h => hst.headFile _ _ _ _ _ h

theorem among_getRemoteObj (hL : Lasting L) (ha : ∀ m, L m → a < m.heapNext) :
    Among T i L (getRemoteObj st a name) fun _ => L :=
  (among_pathWithSlash passes_true hL ha).bind fun _ => (among_headResp hL).bind fun _ => (among_headFile hst hL).bind fun _ =>
    .ite (Prog.tries_pure fun _ _ _ hs => hs) ((among_headFile hst hL).bind fun _ => Prog.tries_pure fun _ _ _ hs => hs)

theorem among_isRemoteDirExist {path : Str} (hL : Lasting L) : Among T i L (isRemoteDirExist st path) fun _ => L :=
  (among_call passes_true hL fun _ _ _ h => hst.listObjects _ _ _ _ h).bind fun _ => Prog.tries_pure fun _ _ _ hs => hs

theorem among_findRemote : Among T i (fun _ => True) (findRemote opt st pino name) (Responded pino) := by
  refine (among_getDentry passes_true lasting_true).bind fun r => ?_
  cases r with
  | none => exact Prog.tries_fail fun _ _ _ _ => .inl rfl
  | some p =>
    have hremote : Among T i (Opened pino p) (getRemoteObj st p name) fun _ => Opened pino p :=
      among_getRemoteObj hst lasting_opened fun _ h => h.2
    refine Prog.Tries.pre (hremote.bind ?_) fun _ _ _ hs => ⟨trivial, hs.2.1 p rfl⟩
    rintro ⟨obj, exist, isDir⟩
    cases exist with
    | true =>
      exact among_make (fun _ => kept_createDentryFromObj) makes_fromObj lasting_opened (fun _ h => h) fun _ _ => responded_some
    | false =>
      refine (among_pathWithSlash passes_true lasting_opened fun _ h => h.2).bind fun _ =>
        (among_isRemoteDirExist hst lasting_opened).bind fun exist => ?_
      cases exist with
      | false => exact Prog.tries_pure fun _ _ _ hs => ⟨trivial, ⟨p, hs.2⟩, fun a ha => by cases ha⟩
      | true =>
        exact (among_addVirtualDir.post fun _ _ _ _ hs => ⟨hs.1, responded_some hs.2.1 hs.2.2⟩).map

theorem among_revalidate (hL : Lasting L) (ha : ∀ m, L m → a < m.heapNext) :
    Among T i L (revalidate opt st a) fun r m => r = some a ∧ L m := by
  have hkey : ∀ {isDir : Bool}, Among T i L (headKey a isDir : MetaM σ _) fun _ => L :=
    .ite (among_pathWithSlash passes_true hL ha) (among_fullPath passes_true hL ha)
  have htouch : Among T i L (do
      incTtl opt a
      pure (some a) : MetaM σ _) fun r m => r = some a ∧ L m :=
    (among_incTtl hL).bind fun _ => Prog.tries_pure fun _ _ _ hs => ⟨hs.1, rfl, hs.2⟩
  exact (among_peek passes_true hL).bind fun _ => hkey.bind fun _ => (among_headResp hL).bind fun _ =>
    (among_headFile hst hL).bind fun _ => .ite htouch ((among_updateInode hL).bind fun _ => htouch)

theorem among_findDentry : Among T i (fun _ => True) (findDentry opt st pino name false) (Responded pino) := by
  have hfind : Among T i (fun _ => True) (cache (.find pino name) fun _ => LocalMemMeta.findDentry pino name : MetaM σ _)
      (Responded pino) := by
    refine among_cache passes_true (fun _ => kept_findDentry) (fun r => ?_) fun _ m hm _ => ?_
    · exact fun m m' hg h => ⟨h.1.imp fun p => lasting_opened m m' hg, fun a ha => Nat.lt_of_lt_of_le (h.2 a ha) hg.next⟩
    · cases hp : m.lookup pino with
      | none =>
        rw [run_findDentry_none hp]
        rfl
      | some p =>
        rw [LocalMemMeta.run_findDentry hp]
        have hlt := (hm.indexed _ _ hp).1
        exact ⟨⟨p, hp, hlt⟩, fun a ha => (hm.child p name a hlt ha).2.1⟩
  refine hfind.bind fun r => ?_
  cases r with
  | none => exact (among_findRemote hst).pre fun _ _ _ hs => ⟨hs.1, trivial⟩
  | some a =>
    have hL : Lasting fun m => (∃ p, Opened pino p m) ∧ a < m.heapNext :=
      lasting_and (fun m m' hg h => h.imp fun p => lasting_opened m m' hg) lasting_alloc
    have hrest : Among T i (fun m => (∃ p, Opened pino p m) ∧ a < m.heapNext) (do
        let expired ← isExpired a
        if expired = true then revalidate opt st a else pure (some a)) (Responded pino) := by
      refine (among_isExpired hL).bind fun _ => .ite ?_ ?_
      · refine (among_revalidate hst hL fun _ h => h.2).post ?_
        rintro r _ _ _ ⟨htrue, rfl, ⟨p, hp⟩, ha⟩
        exact ⟨htrue, responded_some hp ha⟩
      · refine Prog.tries_pure ?_
        rintro _ _ _ ⟨htrue, ⟨p, hp⟩, ha⟩
        exact ⟨htrue, responded_some hp ha⟩
    exact hrest.pre fun _ _ _ hs => ⟨hs.1, hs.2.1, hs.2.2 a rfl⟩

theorem among_createDentry {mode : Mode} :
    Among T i (fun _ => True) (createDentry opt st pino name mode) fun _ _ => True := by
  refine (among_findDentry hst).bind fun d => ?_
  cases d with
  | some d => exact Prog.tries_pure fun _ _ _ _ => ⟨trivial, trivial⟩
  | none =>
    have hdir : ∀ {p : Addr}, Among T i (Opened pino p) (getDentry pino : MetaM σ _) fun r m => r = some p ∧ Opened pino p m := by
      intro p
      exact among_read passes_true (fun _ => kept_getDentry) (fun r m m' hg h => ⟨h.1, lasting_opened m m' hg h.2⟩)
        fun _ _ _ h => ⟨_, rfl, h.1, h⟩
    refine Prog.Tries.pre (among_exists (L := Opened pino) (Q := fun _ _ => True) fun p => Prog.Tries.bind hdir fun r =>
      among_fact (L := Opened pino p) (Q := fun _ _ => True) fun hr => ?_) fun _ _ _ hs => ⟨hs.1, hs.2.1⟩
    rw [hr]
    have hput : ∀ {key : Str} {req : PutFileReq}, Among T i (Opened pino p) (call (.put key) (st.putFile req))
        fun _ => Opened pino p :=
      among_call passes_true lasting_opened fun _ _ _ h => hst.putFile _ _ _ _ h
    refine (among_newKey.bind fun key => (among_peek passes_true lasting_opened).bind fun d => hput.bind fun _ => ?_ :
      Among T i (Opened pino p) (newKey p name mode >>= _) fun _ _ => True)
    exact (among_insert (fun _ => kept_createNew) makes_new lasting_opened fun _ h => h).post fun _ _ _ _ _ => ⟨trivial, trivial⟩

theorem among_removeDentry : Among T i (fun _ => True) (removeDentry opt st pino name) fun _ _ => True := by
  refine (among_findDentry hst).bind fun d => ?_
  cases d with
  | none => exact Prog.tries_pure fun _ _ _ _ => ⟨trivial, trivial⟩
  | some a =>
    have herase : Among T i (fun m => a < m.heapNext)
        (cache (.erase pino name) fun _ => LocalMemMeta.removeDentry pino name : MetaM σ _) fun _ _ => True := by
      refine among_cache passes_true (fun _ => kept_removeDentry) (fun _ => lasting_true) fun _ m _ _ => ?_
      cases hp : m.lookup pino with
      | some p =>
        rw [LocalMemMeta.run_removeDentry hp]
        trivial
      | none =>
        rw [run_removeDentry_none hp]
        rfl
    have hdelete : ∀ key : Str, Among T i (fun m => a < m.heapNext) (do
        call (.delete key) (st.deleteFile { objKey := key })
        cache (.erase pino name) fun _ => LocalMemMeta.removeDentry pino name : MetaM σ _) fun _ _ => True := fun _ =>
      (among_call passes_true lasting_alloc fun _ _ _ h => hst.deleteFile _ _ _ _ h).bind fun _ => herase
    have hread : Among T i (fun m => a < m.heapNext) (readDentry a : MetaM σ _) fun _ m => a < m.heapNext :=
      among_peek passes_true lasting_alloc
    have hnotempty : Among T i (fun m => a < m.heapNext) (Prog.fail .enotempty : MetaM σ Unit) fun _ _ => True :=
      Prog.tries_fail fun _ _ _ _ => .inl rfl
    have hrest := (among_fullPath passes_true lasting_alloc fun _ h => h).bind fun path => hread.bind fun d =>
      Prog.Tries.ite (c := d.isDir = true) (.ite (c := d.childCount ≠ 0) hnotempty (hdelete (path ++ slash))) (hdelete path)
    exact hrest.pre fun _ _ _ hs => ⟨hs.1, hs.2.2 a rfl⟩

/-! ### Listings -/

omit hst in
theorem passes_pages {k n : Nat} (hl : isList l = false) :
    Passes (fun hist : Hist σ => pagesAsked hist + k = n) (fun hist => pagesAsked hist + k = n) l := by
  intro hist s h
  rwa [pagesAsked_other hl]

/-- The turns that are left and the pages that were asked for make up the turns at the start. -/
theorem among_refreshLoop {pre : Str} {turns : Nat} (hT : ∀ hist, pagesAsked hist = turns → T hist) (fuel : Nat) (marker : Str) :
    (refreshLoop st ino pre fuel marker).Tries CacheInv Grown i (fun hist s => pagesAsked hist + fuel = turns ∧ Opened ino a s.cache)
      (fun _ _ s => Opened ino a s.cache) (Harmless T) := by
  induction fuel generalizing marker with
  | zero => exact Prog.tries_fail fun hist _ _ hs => .inr (hT hist hs.1)
  | succ fuel ih =>
    have hpage : (call (.list pre marker) (st.listObjects { delimiter := slash, pre, max := 1000, marker })).Tries CacheInv Grown i
        (fun hist s => pagesAsked hist + (fuel + 1) = turns ∧ Opened ino a s.cache)
        (fun _ hist s => pagesAsked hist + fuel = turns ∧ Opened ino a s.cache) (Harmless T) := by
      refine among_call (fun hist s h => ?_) lasting_opened fun _ _ _ h => hst.listObjects _ _ _ _ h
      rw [pagesAsked_list]
      omega
    refine hpage.bind fun resp => ?_
    cases hft : buildFtree pre resp with
    | none => exact Prog.tries_fail fun _ _ _ _ => .inl rfl
    | some nodes =>
      have hbuild : SaneAmong T i (fun hist => pagesAsked hist + fuel = turns) (Opened ino a)
          (cache (.build ino (nodes.map FTreeNode.name)) fun now => LocalMemMeta.buildDentries now ino nodes : MetaM σ _)
          fun _ => Opened ino a := by
        refine among_cache (passes_pages rfl) (fun _ => kept_buildDentries) (fun _ => lasting_opened) fun now m hm h => ?_
        obtain ⟨m', hrun, hb⟩ := run_buildDentries now hm h.1 (flat_buildFtree hft)
        rw [hrun]
        exact lasting_opened _ _ hb.grow h
      exact hbuild.bind fun _ => .ite (ih _) (Prog.tries_pure fun _ _ _ hs => hs.2)

theorem among_refreshSubDentries {fuel : Nat} (hT : ∀ hist, pagesAsked hist = fuel → T hist) :
    (refreshSubDentries st fuel a).Tries CacheInv Grown i (fun hist s => pagesAsked hist + fuel = fuel ∧ Opened ino a s.cache)
      (fun _ _ _ => True) (Harmless T) := by
  refine (among_pathWithSlash (passes_pages rfl) lasting_opened fun _ h => h.2).bind fun pre =>
    (among_readDentry (passes_pages rfl) lasting_opened fun _ h => h.2).bind fun d => ?_
  have hsweep : SaneAmong T i (fun _ => True) (Opened d.inode.ino a) (cache (.sweep a) fun now => LocalMemMeta.clearUnsyncDentry now a :
      MetaM σ _) fun _ _ => True := by
    refine among_cache passes_true (fun _ => kept_clearUnsyncDentry) (fun _ => lasting_true) fun now m hm h => ?_
    obtain ⟨m', hrun, -⟩ := run_clearUnsyncDentry now hm h.2
    rw [hrun]
    trivial
  refine Prog.Tries.pre ((among_refreshLoop hst hT fuel []).bind fun _ => ?_) fun _ _ _ hs => ⟨hs.1, hs.2.1⟩
  exact (hsweep.pre fun _ _ _ hs => ⟨trivial, hs⟩).post fun _ _ _ _ _ => trivial

theorem among_loadSubDentries {fuel : Nat} (hT : ∀ hist, pagesAsked hist = fuel → T hist) :
    (loadSubDentries st fuel ino).Tries CacheInv Grown i (fun hist _ => pagesAsked hist + fuel = fuel ∧ True) (fun _ _ _ => True)
      (Harmless T) := by
  refine (among_getDentry (passes_pages rfl) lasting_true).bind fun r => ?_
  cases r with
  | none => exact Prog.tries_fail fun _ _ _ _ => .inl rfl
  | some a =>
    have hneeds : SaneAmong T i (fun hist => pagesAsked hist + fuel = fuel) (Opened ino a) (needsRefresh a : MetaM σ _)
        fun _ => Opened ino a :=
      among_step (Q := fun _ => Opened ino a) (passes_pages rfl) tame_needsRefresh (fun _ => lasting_opened) fun _ _ h => h
    have hlist : ∀ {P : Hist σ → World σ → Prop}, (listChildren a : MetaM σ _).Tries CacheInv Grown i P (fun _ _ _ => True)
        (Harmless T) :=
      ((among_listChildren (L := fun _ => True) passes_true).post fun _ _ _ _ _ => trivial).pre fun _ _ _ _ => ⟨trivial, trivial⟩
    refine Prog.Tries.pre (hneeds.bind fun stale => .ite ?_ hlist) fun _ _ _ hs => ⟨hs.1, hs.2.1 a rfl⟩
    exact (among_refreshSubDentries hst hT).bind fun _ => hlist

/-- A request throws nothing but exceptions that are caught, unless it is a listing and asked for `fuel` pages. -/
theorem among_request {fuel : Nat} (r : Request) : (r.prog opt st fuel).Tries CacheInv Grown i (fun hist _ => hist = [])
    (fun _ _ _ => True) (Harmless fun hist => (∃ ino, r = .load ino) ∧ pagesAsked hist = fuel) := by
  have hfrom : ∀ {T : Hist σ → Prop} {α : Type} {q : MetaM σ α} {Q : α → LocalMemMeta → Prop}, Among T i (fun _ => True) q Q →
      q.Tries CacheInv Grown i (fun hist _ => hist = []) (fun _ _ _ => True) (Harmless T) := fun h =>
    (h.pre fun _ _ _ _ => ⟨trivial, trivial⟩).post fun _ _ _ _ _ => trivial
  cases r with
  | find => exact (hfrom (among_findDentry hst)).map
  | create => exact (hfrom (among_createDentry hst)).map
  | remove => exact hfrom (among_removeDentry hst)
  | load ino =>
    refine Prog.Tries.map (Prog.Tries.pre (among_loadSubDentries hst fun hist h => ⟨⟨ino, rfl⟩, h⟩) fun hist _ _ hs => ⟨?_, trivial⟩)
    rw [hs]
    exact Nat.zero_add fuel
  | updateSize => exact hfrom (among_updateInode lasting_true)

end

/-! ### Every run -/

variable {fuel : ι → Nat} {reqs : ι → Request} {s : World σ} {y : Pool ι MetaAct Err (World σ) Unit} {e : Err}

/-- In every interleaving of requests in which each sweep finds nothing to remove, while other clients change the bucket in any
    way and any call may fail, what a request throws is a `std::exception`. The loop of a listing has to be given a turn for each page that the keys fill, which the
    bucket had at one time or another, and two more. -/
theorem interleaved_errors {opt : ι → MetaOpt} (hc : c.PagesInOrder view) (hs : CacheInv s)
    (h : Pool.Runs (fun _ l x => l.Spares x.state.cache) CacheStays (requestPool opt (s3Stor c) fuel reqs s) y) {keys : List Str}
    (hkeys : ∀ x ∈ y.conf.past, ∀ key, (view x.2.2.stor).Holds key → key ∈ keys)
    (hfuel : ∀ ino, reqs i = .load ino → keys.length / 1000 + 1 < fuel i) (hi : y.threads i = .fail e) : e.isStdException = true := by
  have henv : ∀ s s' : World σ, CacheStays s s' → CacheInv s → CacheInv s' ∧ Grown s s' := by
    intro s s' he hs
    have hgrown := grown_of_eq hs he
    exact ⟨hgrown.after, hgrown⟩
  have h := Pool.runs_unguarded h
  have hthrown := Pool.thrown henv (fun j => among_request (s3Stor_throwsStd c) (reqs j)) hs h hi
  rcases hthrown with hstd | ⟨⟨ino, hload⟩, hpages⟩
  · exact hstd
  · have hbound := pages_bound (due_load hc hs h hload) hkeys
    have hturns := hfuel ino hload
    omega

/-- The root is listed, and the directory `d` by its number before the listing has given it that number. -/
def listEarly : Bool → Request
  | false => .load 2
  | true => .load ROOT_INODE_ID

def earlyList : Pool Bool MetaAct Err (World Log) Unit :=
  requestPool (fun _ => ⟨0, 0, 60⟩) (s3Stor Log.client) (fun _ => 2) listEarly (newWorld twoObjects)

theorem lists_early : ∃ y, earlyList.exec (fun _ l x => sparesWithin 1 l x.state.cache)
      (List.replicate 3 true ++ [false] ++ List.replicate 5 true) = some y ∧
    (y.conf.past.all keepsKeys && decide ((y.threads false).raised = some .enoent)) = true :=
  (Option.any_eq_true _ _).mp (by decide +kernel)

/-- The root is listed and swept meanwhile. -/
theorem interleaved_errors_early : ∃ y, Pool.Runs (fun _ l x => l.Spares x.state.cache) CacheStays earlyList y ∧
    y.threads false = .fail .enoent ∧ Err.enoent.isStdException = true := by
  obtain ⟨y, hy, hall⟩ := lists_early
  obtain ⟨hkeys, hraised⟩ := (Bool.and_eq_true _ _).mp hall
  have hruns : Pool.Runs (fun _ l x => l.Spares x.state.cache) CacheStays (requestPool (fun _ => ⟨0, 0, 60⟩) (s3Stor Log.client)
      (fun _ => 2) listEarly (newWorld twoObjects)) y := Pool.runs_exec (fun _ _ _ h => spares_of_within h) hy
  have hturns : twoObjects.keys.length / 1000 + 1 < 2 := by decide +kernel
  have hfail := Prog.of_raised (of_decide_eq_true hraised)
  exact ⟨y, hruns, hfail, interleaved_errors Log.client_inOrder.pages (show CacheInv (newWorld twoObjects) from .new ⟨0, 0, 60⟩ ⟨0, 0⟩)
    hruns (holds_keepsKeys hkeys) (fun _ _ => hturns) hfail⟩

end MetaImpl

end Catfs
