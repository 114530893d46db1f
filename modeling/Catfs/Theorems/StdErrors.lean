import Catfs.Fsa
import Catfs.Lib.Behaves
import Catfs.Theorems.Effects
import Catfs.Theorems.Refresh

/-! # The exceptions of the metadata layer

Over a store that throws only classes derived from `std::exception`, so do the metadata requests: no null pointer is
followed and every loop ends, that over the pages of a listing when the listing does. -/

namespace Catfs

open Lib MetaM LocalMemMeta
open EStateM (Result)

section
variable {σ α : Type}

/-- Each operation throws only what is derived from `std::exception`. -/
structure Stor.ThrowsStd (st : Stor σ) : Prop where
  headFile : ∀ req resp t e t', st.headFile req resp t = .error e t' → e.isStdException = true
  listObjects : ∀ req t e t', st.listObjects req t = .error e t' → e.isStdException = true
  readFile : ∀ req t e t', st.readFile req t = .error e t' → e.isStdException = true
  deleteFile : ∀ req t e t', st.deleteFile req t = .error e t' → e.isStdException = true
  putFile : ∀ req t e t', st.putFile req t = .error e t' → e.isStdException = true
  minit : ∀ req t e t', st.minit req t = .error e t' → e.isStdException = true
  mput : ∀ req t e t', st.mput req t = .error e t' → e.isStdException = true
  mfinish : ∀ req t e t', st.mfinish req t = .error e t' → e.isStdException = true

theorem orServerError_error {m : EStateM S3Error σ α} {t t' : σ} {e : Err} (h : orServerError m t = .error e t') :
    e.isStdException = true := by
  rw [orServerError] at h
  cases hm : m t with
  | ok a s =>
    rw [hm] at h
    cases h
  | error e' s =>
    rw [hm] at h
    obtain ⟨rfl, rfl⟩ := Result.error.inj h
    rfl

theorem bind_throwsStd {m : EStateM S3Error σ α} {β : Type} {f : α → β} {t t' : σ} {e : Err}
    (h : (orServerError m >>= fun a => pure (f a)) t = .error e t') : e.isStdException = true := by
  cases hm : orServerError m t with
  | ok a s =>
    rw [bind_ok hm] at h
    cases h
  | error e' s =>
    rw [bind_error hm] at h
    obtain ⟨rfl, rfl⟩ := Result.error.inj h
    exact orServerError_error hm

theorem s3Stor_throwsStd (c : S3Client σ) : (s3Stor c).ThrowsStd where
  headFile req resp t e t' h := by
    simp only [s3Stor] at h
    split at h
    · cases h
    · cases h
    · obtain ⟨rfl, rfl⟩ := Result.error.inj h
      rfl
  listObjects _ _ _ _ h := bind_throwsStd h
  readFile _ _ _ _ h := bind_throwsStd h
  deleteFile _ _ _ _ h := orServerError_error h
  putFile _ _ _ _ h := orServerError_error h
  minit _ _ _ _ h := bind_throwsStd h
  mput _ _ _ _ h := orServerError_error h
  mfinish _ _ _ _ h := orServerError_error h

/-- Every listing comes to an end: `rank` of the state, the prefix and the marker is smaller for each next page. -/
def Stor.ListsEnd (st : Stor σ) (rank : σ → Str → Str → Nat) : Prop :=
  ∀ t pre marker resp t', st.listObjects { delimiter := slash, pre, max := 1000, marker } t = .ok resp t' →
    resp.isTrunc = true → rank t' pre resp.nextMarker < rank t pre marker

end

namespace MetaImpl
variable {σ α : Type}

/-- From a state with the invariant of the cache and `P`, the program returns with `Q`, or throws what is derived from
    `std::exception`. -/
abbrev Sane (P : World σ → Prop) (p : MetaM σ α) (Q : α → World σ → Prop) : Prop :=
  Behaves (fun s => CacheInv s ∧ P s) p.run (fun a s => CacheInv s ∧ Q a s) fun e _ => e.isStdException = true

variable {P : World σ → Prop} {Q : α → World σ → Prop} {opt : MetaOpt} {st : Stor σ} {pino ino : InodeID} {name : Str}
  {a : Addr}

theorem sane_pre {P' : World σ → Prop} {p : MetaM σ α} (h : Sane P' p Q) (hP : ∀ s, P s → P' s) : Sane P p Q :=
  Behaves.pre h fun s hs => ⟨hs.1, hP s hs.2⟩

/-- A fact that does not depend on the state. -/
theorem sane_fact {φ : Prop} {p : MetaM σ α} (h : φ → Sane P p Q) : Sane (fun s => φ ∧ P s) p Q :=
  fun s hs => h hs.2.1 s ⟨hs.1, hs.2.2⟩

theorem sane_exists {γ : Type} {P : γ → World σ → Prop} {p : MetaM σ α} (h : ∀ c, Sane (P c) p Q) :
    Sane (fun s => ∃ c, P c s) p Q := fun s hs => by
  obtain ⟨hinv, c, hc⟩ := hs
  exact h c s ⟨hinv, hc⟩

/-! ### The steps -/

theorem sane_reads {p : MetaM σ α} (h : ∀ s, CacheInv s → P s → ∃ r, p.run s = .ok r s ∧ Q r s) : Sane P p Q := by
  rintro s ⟨hs, hP⟩
  obtain ⟨r, hrun, hQ⟩ := h s hs hP
  rw [hrun]
  exact ⟨hs, hQ⟩

theorem sane_cache {l : MetaAct} {f : Timespec → LocalM α} (hk : ∀ now, LocalMemMeta.Kept (f now))
    (h : ∀ s, CacheInv s → P s → match f s.now s.cache with
      | .ok r m' => Q r { s with cache := m' }
      | .error e _ => e.isStdException = true) : Sane P (cache l f) Q := by
  rintro s ⟨hs, hP⟩
  have hstep := h s hs hP
  have hkeep := hk s.now s.cache hs trivial
  rw [cache, Prog.run_lift, onCache, zoom]
  cases hf : f s.now s.cache with
  | ok r m' =>
    rw [hf] at hstep hkeep
    exact ⟨hkeep.1, hstep⟩
  | error e m' =>
    rw [hf] at hstep
    exact hstep

theorem sane_call {l : MetaAct} {f : EStateM Err σ α} (he : ∀ t e t', f t = .error e t' → e.isStdException = true)
    (h : ∀ s r t', P s → f s.stor = .ok r t' → Q r { s with stor := t' }) : Sane P (call l f) Q := by
  rintro s ⟨hs, hP⟩
  rw [call, Prog.run_lift, zoom]
  cases hf : f s.stor with
  | ok r t' => exact ⟨hs, h s r t' hP hf⟩
  | error e t' => exact he _ _ _ hf

/-- The dentry is in the heap. -/
abbrev Alloc (a : Addr) (s : World σ) : Prop := a < s.cache.heapNext

theorem sane_getDentry : Sane P (getDentry ino) fun r s => r = s.cache.lookup ino ∧ P s :=
  sane_reads fun _ _ hP => ⟨_, rfl, rfl, hP⟩

theorem sane_fullPath (ha : ∀ s, P s → Alloc a s) : Sane P (fullPath a) fun _ => P := by
  refine sane_reads fun s hs hP => ?_
  obtain ⟨path, hpath⟩ := fullPath_some hs (ha s hP)
  exact ⟨path, run_cache_ok (run_getFullPath hpath), hP⟩

theorem sane_pathWithSlash (ha : ∀ s, P s → Alloc a s) : Sane P (pathWithSlash a) fun _ => P :=
  sane_reads fun s hs hP => ⟨_, run_pathWithSlash hs (ha s hP), hP⟩

theorem sane_headKey {isDir : Bool} (ha : ∀ s, P s → Alloc a s) : Sane P (headKey a isDir) fun _ => P :=
  Prog.behaves_ite (sane_pathWithSlash ha) (sane_fullPath ha)

/-- What holds of the cache alone is not touched by the store. -/
abbrev OnCache (L : LocalMemMeta → Prop) (s : World σ) : Prop := L s.cache

variable {L : LocalMemMeta → Prop}

section
variable (hst : st.ThrowsStd)
include hst

theorem sane_headFile {key : Str} {resp : HeadFileResp} : Sane (OnCache L) (headFile st key resp) fun _ => OnCache L :=
  sane_call (fun _ _ _ h => hst.headFile _ _ _ _ _ h) fun _ _ _ hL _ => hL

theorem sane_getRemoteObj (ha : ∀ m, L m → a < m.heapNext) : Sane (OnCache L) (getRemoteObj st a name) fun _ => OnCache L := by
  have hresp : Sane (σ := σ) (OnCache L) headResp fun _ => OnCache L := sane_reads fun _ _ hL => ⟨_, rfl, hL⟩
  exact Prog.behaves_bind (sane_pathWithSlash fun s => ha s.cache) fun _ => Prog.behaves_bind hresp fun _ =>
    Prog.behaves_bind (sane_headFile hst) fun _ => Prog.behaves_ite (.pure fun _ hs => hs) <|
    Prog.behaves_bind (sane_headFile hst) fun _ => .pure fun _ hs => hs

theorem sane_isRemoteDirExist {path : Str} : Sane (OnCache L) (isRemoteDirExist st path) fun _ => OnCache L :=
  Prog.behaves_bind (sane_call (fun _ _ _ h => hst.listObjects _ _ _ _ h) fun _ _ _ hL _ => hL) fun _ => .pure fun _ hs => hs

end

/-! ### Lookups -/

theorem sane_incTtl (hL : Lasting L) : Sane (OnCache L) (incTtl opt a : MetaM σ _) fun _ => OnCache L :=
  sane_cache (fun _ => kept_store Mild.incTtl) fun _ _ h => hL _ _ (.set Mild.incTtl) h

theorem sane_updateInode {u : InodeUpdateAttr} (hL : Lasting L) :
    Sane (OnCache L) (updateInode ino u : MetaM σ _) fun _ => OnCache L := by
  refine sane_cache (fun _ => kept_updateInode) fun s hs h => ?_
  cases hino : s.cache.lookup ino with
  | some b =>
    rw [LocalMemMeta.run_updateInode hino]
    exact hL _ _ (.set Mild.apply) h
  | none =>
    rw [LocalMemMeta.run_updateInode_none hino]
    rfl

theorem lasting_and {L' : LocalMemMeta → Prop} (h : Lasting L) (h' : Lasting L') : Lasting fun m => L m ∧ L' m :=
  fun m m' hg hm => ⟨h m m' hg hm.1, h' m m' hg hm.2⟩

/-- The directory is in the index and in the heap. -/
def Opened (pino : InodeID) (p : Addr) (m : LocalMemMeta) : Prop := m.lookup pino = some p ∧ p < m.heapNext

theorem lasting_opened {p : Addr} : Lasting (Opened pino p) :=
  fun _ _ hg h => ⟨hg.index _ _ h.1, Nat.lt_of_lt_of_le h.2 hg.next⟩

/-- What a lookup leaves behind: its directory open, and the dentry it returns in the heap. -/
def LookupLeft (pino : InodeID) (r : Option Addr) (s : World σ) : Prop :=
  (∃ p, Opened pino p s.cache) ∧ ∀ a, r = some a → Alloc a s

theorem sane_insert {p : Addr} {f : Timespec → LocalM Addr} (hk : ∀ now, LocalMemMeta.Kept (f now)) (hf : MakesChild pino name f) :
    Sane (σ := σ) (OnCache (Opened pino p)) (cache (.insert pino name) f) fun d =>
      OnCache fun m => Opened pino p m ∧ d < m.heapNext := by
  refine sane_cache hk fun s hs h => ?_
  have hlookup := h.1
  rcases hf s.now s.cache hs with ⟨q, inode, -, -, hrun⟩ | ⟨e, m', hnone, -⟩
  · have hkeep := hk s.now s.cache hs trivial
    rw [hrun] at hkeep ⊢
    exact ⟨lasting_opened _ _ hkeep.2.1 h, Nat.lt_succ_self _⟩
  · rw [hlookup] at hnone
    cases hnone

/-- A dentry is made for the answer. -/
theorem sane_make {p : Addr} {f : Timespec → LocalM Addr} (hk : ∀ now, LocalMemMeta.Kept (f now)) (hf : MakesChild pino name f)
    (g : Addr → α) : Sane (OnCache (Opened pino p)) (do
      let d ← cache (.insert pino name) f
      incTtl opt d
      pure (g d) : MetaM σ _) fun r s => ∃ d, r = g d ∧ Alloc d s ∧ Opened pino p s.cache :=
  Prog.behaves_bind (sane_insert hk hf) fun d =>
    Prog.behaves_bind (sane_incTtl (lasting_and lasting_opened lasting_alloc)) fun _ =>
    .pure fun _ hs => ⟨hs.1, d, rfl, hs.2.2, hs.2.1⟩

section
variable (hst : st.ThrowsStd)
include hst

theorem sane_findRemote : Sane (fun _ => True) (findRemote opt st pino name) (LookupLeft pino) := by
  have hdir : Sane (σ := σ) (fun _ => True) (getDentry pino) fun r s => r = s.cache.lookup pino :=
    sane_reads fun _ _ _ => ⟨_, rfl, rfl⟩
  refine Prog.behaves_bind hdir fun r => ?_
  cases r with
  | none => exact .throw fun _ _ => rfl
  | some p =>
    have hopened : ∀ s : World σ, CacheInv s ∧ some p = s.cache.lookup pino → CacheInv s ∧ OnCache (Opened pino p) s :=
      fun s hs => ⟨hs.1, hs.2.symm, (hs.1.indexed _ _ hs.2.symm).1⟩
    refine Behaves.pre (Prog.behaves_bind (sane_getRemoteObj hst fun _ h => h.2) fun ⟨obj, exist, isDir⟩ => ?_) hopened
    cases exist with
    | true =>
      refine (sane_make (fun _ => kept_createDentryFromObj) makes_fromObj some).post (fun r s hs => ?_) fun _ _ h => h
      obtain ⟨hinv, d, rfl, hd, hp⟩ := hs
      exact ⟨hinv, ⟨p, hp⟩, fun a ha => Option.some.inj ha ▸ hd⟩
    | false =>
      refine Prog.behaves_bind (sane_pathWithSlash fun s h => h.2) fun pre =>
        Prog.behaves_bind (sane_isRemoteDirExist hst) fun exist => ?_
      cases exist with
      | false => exact .pure fun s hs => ⟨hs.1, ⟨p, hs.2⟩, fun a ha => by cases ha⟩
      | true =>
        have hread : Sane (σ := σ) (OnCache (Opened pino p)) (readDentry p) fun d s =>
            d.inode.ino = pino ∧ OnCache (Opened pino p) s :=
          sane_reads fun s hs h => ⟨_, rfl, (hs.indexed _ _ h.1).2, h⟩
        refine Prog.behaves_map (Prog.behaves_bind hread fun d => ?_)
        refine sane_fact fun hd => ?_
        rw [hd]
        refine (sane_make (fun _ => kept_createNew) makes_new id).post (fun r s hs => ?_) fun _ _ h => h
        obtain ⟨hinv, d', rfl, hd', hp⟩ := hs
        exact ⟨hinv, ⟨p, hp⟩, fun a ha => Option.some.inj ha ▸ hd'⟩

theorem sane_revalidate (hL : Lasting L) (ha : ∀ m, L m → a < m.heapNext) :
    Sane (OnCache L) (revalidate opt st a) fun r s => r = some a ∧ OnCache L s := by
  have hread : Sane (σ := σ) (OnCache L) (readDentry a) fun _ => OnCache L := sane_reads fun _ _ h => ⟨_, rfl, h⟩
  have hresp : Sane (σ := σ) (OnCache L) headResp fun _ => OnCache L := sane_reads fun _ _ h => ⟨_, rfl, h⟩
  have htouch : Sane (OnCache L) (do
      incTtl opt a
      pure (some a) : MetaM σ _) fun r s => r = some a ∧ OnCache L s :=
    Prog.behaves_bind (sane_incTtl hL) fun _ => .pure fun _ hs => ⟨hs.1, rfl, hs.2⟩
  exact Prog.behaves_bind hread fun d => Prog.behaves_bind (sane_headKey fun s => ha s.cache) fun path =>
    Prog.behaves_bind hresp fun resp => Prog.behaves_bind (sane_headFile hst) fun resp =>
    Prog.behaves_ite htouch (Prog.behaves_bind (sane_updateInode hL) fun _ => htouch)

theorem sane_findDentry : Sane (fun _ => True) (findDentry opt st pino name false) (LookupLeft pino) := by
  have hfind : Sane (σ := σ) (fun _ => True) (cache (.find pino name) fun _ => LocalMemMeta.findDentry pino name)
      (LookupLeft pino) := by
    refine sane_cache (fun _ => kept_findDentry) fun s hs _ => ?_
    cases hp : s.cache.lookup pino with
    | none =>
      rw [run_findDentry_none hp]
      rfl
    | some p =>
      rw [LocalMemMeta.run_findDentry hp]
      have hlt := (hs.indexed _ _ hp).1
      exact ⟨⟨p, hp, hlt⟩, fun a ha => (hs.child p name a hlt ha).2.1⟩
  refine Prog.behaves_bind hfind fun r => ?_
  cases r with
  | none => exact (sane_findRemote hst).pre fun s hs => ⟨hs.1, trivial⟩
  | some a =>
    have hrest : ∀ p, Sane (OnCache fun m => Opened pino p m ∧ a < m.heapNext) (do
        let expired ← isExpired a
        if expired = true then revalidate opt st a else pure (some a)) (LookupLeft pino) := by
      intro p
      have hexp : Sane (σ := σ) (OnCache fun m => Opened pino p m ∧ a < m.heapNext) (isExpired a) fun _ =>
          OnCache fun m => Opened pino p m ∧ a < m.heapNext := sane_reads fun _ _ h => ⟨_, rfl, h⟩
      refine Prog.behaves_bind hexp fun _ => Prog.behaves_ite ?_ (.pure fun s hs => ?_)
      · refine (sane_revalidate hst (lasting_and lasting_opened lasting_alloc) fun _ h => h.2).post ?_ fun _ _ h => h
        rintro r s ⟨hs, rfl, hp, ha⟩
        exact ⟨hs, ⟨p, hp⟩, fun b hb => Option.some.inj hb ▸ ha⟩
      · exact ⟨hs.1, ⟨p, hs.2.1⟩, fun b hb => Option.some.inj hb ▸ hs.2.2⟩
    refine sane_pre (sane_exists hrest) fun s hs => ?_
    obtain ⟨⟨p, hp⟩, ha⟩ := hs
    exact ⟨p, hp, ha a rfl⟩

theorem sane_createDentry {mode : Mode} :
    Sane (fun _ => True) (createDentry opt st pino name mode) fun _ _ => True := by
  refine Prog.behaves_bind (sane_findDentry hst) fun d => ?_
  cases d with
  | some d => exact .pure fun s hs => ⟨hs.1, trivial⟩
  | none =>
    refine sane_pre (sane_exists fun p => ?_ : Sane (fun s => ∃ p, Opened pino p s.cache) _ _) fun s hs => hs.1
    have hdir : Sane (σ := σ) (OnCache (Opened pino p)) (getDentry pino) fun r s =>
        r = some p ∧ OnCache (Opened pino p) s := sane_reads fun s _ h => ⟨_, rfl, h.1, h⟩
    have hread : Sane (σ := σ) (OnCache (Opened pino p)) (readDentry p) fun _ => OnCache (Opened pino p) :=
      sane_reads fun _ _ h => ⟨_, rfl, h⟩
    have hkey : ∀ isRoot, Sane (σ := σ) (OnCache (Opened pino p)) (fileKey p isRoot name) fun _ => OnCache (Opened pino p) :=
      fun isRoot => Prog.behaves_ite (.pure fun _ hs => hs) (Prog.behaves_bind (sane_fullPath fun _ h => h.2) fun _ =>
        .pure fun _ hs => hs)
    have hnew : Sane (σ := σ) (OnCache (Opened pino p)) (newKey p name mode) fun _ => OnCache (Opened pino p) :=
      Prog.behaves_bind hread fun d => Prog.behaves_bind (hkey _) fun _ => .pure fun _ hs => hs
    refine Prog.behaves_bind hdir fun r => ?_
    refine sane_fact fun hr => ?_
    rw [hr]
    have hput : ∀ key req, Sane (OnCache (Opened pino p)) (call (.put key) (st.putFile req)) fun _ => OnCache (Opened pino p) :=
      fun _ _ => sane_call (fun _ _ _ h => hst.putFile _ _ _ _ h) fun _ _ _ h _ => h
    refine (Prog.behaves_bind hnew fun key => Prog.behaves_bind hread fun d => Prog.behaves_bind (hput _ _) fun _ => ?_ :
      Behaves _ (newKey p name mode >>= _).run _ _)
    exact (sane_insert (fun _ => kept_createNew) makes_new).post (fun _ s hs => ⟨hs.1, trivial⟩) fun _ _ h => h

theorem sane_removeDentry : Sane (fun _ => True) (removeDentry opt st pino name) fun _ _ => True := by
  refine Prog.behaves_bind (sane_findDentry hst) fun d => ?_
  cases d with
  | none => exact .pure fun s hs => ⟨hs.1, trivial⟩
  | some a =>
    have herase : Sane (σ := σ) (OnCache (a < ·.heapNext))
        (cache (.erase pino name) fun _ => LocalMemMeta.removeDentry pino name) fun _ _ => True := by
      refine sane_cache (fun _ => kept_removeDentry) fun s hs _ => ?_
      cases hp : s.cache.lookup pino with
      | some p =>
        rw [LocalMemMeta.run_removeDentry hp]
        trivial
      | none =>
        rw [run_removeDentry_none hp]
        rfl
    have hdelete : ∀ key, Sane (OnCache (a < ·.heapNext)) (do
        call (.delete key) (st.deleteFile { objKey := key })
        cache (.erase pino name) fun _ => LocalMemMeta.removeDentry pino name : MetaM σ _) fun _ _ => True := fun key =>
      Prog.behaves_bind (sane_call (fun _ _ _ h => hst.deleteFile _ _ _ _ h) fun _ _ _ h _ => h) fun _ => herase
    have hread : Sane (σ := σ) (OnCache (a < ·.heapNext)) (readDentry a) fun _ => OnCache (a < ·.heapNext) :=
      sane_reads fun _ _ h => ⟨_, rfl, h⟩
    refine sane_pre (?_ : Sane (OnCache (a < ·.heapNext)) _ _) fun s hs => hs.2 a rfl
    exact Prog.behaves_bind (sane_fullPath fun _ h => h) fun path => Prog.behaves_bind hread fun d =>
      Prog.behaves_ite (Prog.behaves_ite (.throw fun _ _ => rfl) (hdelete _)) (hdelete _)

/-! ### Listings -/

variable {rank : σ → Str → Str → Nat} (hends : st.ListsEnd rank)
include hends

/-- The pages of a listing are at most its rank and one. -/
theorem sane_refreshLoop {pre : Str} (fuel : Nat) (marker : Str) :
    Sane (fun s => Opened ino a s.cache ∧ rank s.stor pre marker < fuel) (refreshLoop st ino pre fuel marker) fun _ =>
      OnCache (Opened ino a) := by
  induction fuel generalizing marker with
  | zero => exact fun s hs => absurd hs.2.2 (Nat.not_lt_zero _)
  | succ fuel ih =>
    have hpage : Sane (fun s => Opened ino a s.cache ∧ rank s.stor pre marker < fuel + 1)
        (call (.list pre marker) (st.listObjects { delimiter := slash, pre, max := 1000, marker })) fun resp s =>
          Opened ino a s.cache ∧ (resp.isTrunc = true → rank s.stor pre resp.nextMarker < fuel) :=
      sane_call (fun _ _ _ h => hst.listObjects _ _ _ _ h) fun s resp t' h hrun =>
        ⟨h.1, fun ht => Nat.lt_of_lt_of_le (hends _ _ _ _ _ hrun ht) (Nat.le_of_lt_succ h.2)⟩
    refine Prog.behaves_bind hpage fun resp => ?_
    cases hft : buildFtree pre resp with
    | none => exact .throw fun _ _ => rfl
    | some nodes =>
      have hbuild : Sane (fun s : World σ => Opened ino a s.cache ∧ (resp.isTrunc = true → rank s.stor pre resp.nextMarker < fuel))
          (cache (.build ino (nodes.map FTreeNode.name)) fun now => LocalMemMeta.buildDentries now ino nodes) fun _ s =>
            Opened ino a s.cache ∧ (resp.isTrunc = true → rank s.stor pre resp.nextMarker < fuel) := by
        refine sane_cache (fun _ => kept_buildDentries) fun s hs h => ?_
        obtain ⟨m', hrun, hb⟩ := run_buildDentries s.now hs h.1.1 (flat_buildFtree hft)
        rw [hrun]
        exact ⟨lasting_opened _ _ hb.grow h.1, h.2⟩
      refine Prog.behaves_bind hbuild fun _ => ?_
      split
      · exact (ih _).pre fun s hs => ⟨hs.1, hs.2.1, hs.2.2 ‹_›⟩
      · exact .pure fun s hs => ⟨hs.1, hs.2.1⟩

/-- The turns that a refresh of the directory `ino` needs at most. -/
def pages (rank : σ → Str → Str → Nat) (ino : InodeID) (s : World σ) : Nat :=
  match s.cache.lookup ino with
  | some a => rank s.stor (s.cache.dirPrefix a) [] + 1
  | none => 0

theorem sane_refreshSubDentries {fuel : Nat} : Sane (fun s => a < s.cache.heapNext ∧ rank s.stor (s.cache.dirPrefix a) [] < fuel)
    (refreshSubDentries st fuel a) fun _ _ => True := by
  have hpre : Sane (fun s : World σ => a < s.cache.heapNext ∧ rank s.stor (s.cache.dirPrefix a) [] < fuel) (pathWithSlash a)
      fun pre s => a < s.cache.heapNext ∧ rank s.stor pre [] < fuel :=
    sane_reads fun s hs h => ⟨_, run_pathWithSlash hs h.1, h⟩
  refine Prog.behaves_bind hpre fun pre => ?_
  have hread : Sane (fun s : World σ => a < s.cache.heapNext ∧ rank s.stor pre [] < fuel) (readDentry a) fun d s =>
      Opened d.inode.ino a s.cache ∧ rank s.stor pre [] < fuel :=
    sane_reads fun s hs h => ⟨_, rfl, ⟨hs.index a h.1, h.1⟩, h.2⟩
  refine Prog.behaves_bind hread fun d => Prog.behaves_bind (sane_refreshLoop hst hends fuel []) fun _ => ?_
  refine sane_cache (fun _ => kept_clearUnsyncDentry) fun s hs h => ?_
  obtain ⟨m', hrun, -⟩ := run_clearUnsyncDentry s.now hs h.2
  rw [hrun]
  trivial

theorem sane_loadSubDentries {fuel : Nat} :
    Sane (fun s => pages rank ino s ≤ fuel) (loadSubDentries st fuel ino) fun _ _ => True := by
  refine Prog.behaves_bind sane_getDentry fun r => ?_
  cases r with
  | none => exact .throw fun _ _ => rfl
  | some a =>
    have hneeds : Sane (fun s => some a = s.cache.lookup ino ∧ pages rank ino s ≤ fuel) (needsRefresh a) fun _ s =>
        a < s.cache.heapNext ∧ rank s.stor (s.cache.dirPrefix a) [] < fuel := by
      refine sane_reads fun s hs h => ⟨_, rfl, (hs.indexed _ _ h.1.symm).1, ?_⟩
      have hpages := h.2
      rw [pages, ← h.1] at hpages
      exact hpages
    have hread : ∀ P : World σ → Prop, Sane P (cache (.read a) fun _ => LocalMemMeta.childrenList a) fun _ _ => True :=
      fun P => sane_reads fun s _ _ => ⟨_, rfl, trivial⟩
    have hlist : ∀ P : World σ → Prop, Sane P (listChildren a : MetaM σ _) fun _ _ => True :=
      fun P => Prog.behaves_bind (hread P) fun _ => .pure fun _ hs => hs
    exact Prog.behaves_bind hneeds fun _ =>
      Prog.behaves_ite (Prog.behaves_bind (sane_refreshSubDentries hst hends) fun _ => hlist _) (hlist _)

end

end MetaImpl

end Catfs
