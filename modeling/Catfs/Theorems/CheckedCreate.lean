import Catfs.Lib.Watch
import Catfs.Theorems.Interleaved

/-! # A creation looks before it writes

A creation puts an object only after the store told it that neither a file nor a directory has the path. Other requests
and other clients may act between the looks and the put, but what was there all along is not overwritten. -/

namespace Catfs

open Lib MetaM LocalMemMeta
open EStateM (Result)

/-- A client that finds no object under a key only when there is none. -/
def S3Client.Misses {σ : Type} (c : S3Client σ) (view : σ → Bucket) : Prop :=
  ∀ t key msg t', c.headObject key t = .error (.notFound msg) t' → ¬ (view t).Holds key

theorem Log.client_misses : Log.client.Misses Log.bucket := by
  rintro t key msg t' h hkey
  obtain ⟨body, hbody⟩ := Option.isSome_iff_exists.mp hkey
  obtain ⟨r, t₁, hr, -⟩ := Log.client_serves.head t key body hbody
  rw [hr] at h
  cases h

namespace MetaImpl
variable {ι σ α : Type} [DecidableEq ι] {c : S3Client σ} {st : Stor σ} {view : σ → Bucket} {opt : MetaOpt} {pino ino : InodeID}
  {n path : Str} {mode : Mode} {a p : Addr} {i : ι}

abbrev Hist (σ : Type) := List (MetaAct × World σ)

/-- The store was asked for a file and for a directory at `path`, and had neither when it answered. -/
def Missed (view : σ → Bucket) (path : Str) (hist : Hist σ) : Prop :=
  ∃ t₁ t₂, [(MetaAct.head path, t₁), (.head (path ++ slash), t₂)].Sublist hist ∧
    ¬ (view t₁.stor).Holds path ∧ ¬ (view t₂.stor).Holds (path ++ slash)

/-- Nothing was put. -/
def NoPut (hist : Hist σ) : Prop := ∀ e ∈ hist, ∀ key, e.1 ≠ .put key

/-- A creation puts nothing but its entry's object, once, and not before it missed the entry. -/
def Request.Checks (view : σ → Bucket) (r : Request) (hist : Hist σ) (l : MetaAct) (s : World σ) : Prop :=
  ∀ pino n mode, r = .create pino n mode → ∀ key, l = .put key →
    ∃ p, s.cache.lookup pino = some p ∧ key = entryKey (s.cache.dirPrefix p ++ n) (mode &&& S_IFDIR != 0) ∧
      Missed view (s.cache.dirPrefix p ++ n) hist ∧ NoPut hist

/-! ### Steps that put nothing -/

abbrev Putless (q : MetaM σ α) : Prop := q.Labels fun l => ∀ key, l ≠ .put key

theorem putless_step {l : MetaAct} {f : EStateM Err (World σ) α} (hl : ∀ key, l ≠ .put key) : Putless (Prog.lift l f) :=
  Prog.labels_lift hl

theorem putless_readDentry : Putless (readDentry a : MetaM σ _) := putless_step (by simp)

theorem putless_fullPath : Putless (fullPath a : MetaM σ _) := putless_step (by simp)

theorem putless_pathWithSlash : Putless (pathWithSlash a : MetaM σ _) := putless_step (by simp)

theorem putless_getDentry : Putless (getDentry ino : MetaM σ _) := putless_step (by simp)

theorem putless_incTtl : Putless (incTtl opt a : MetaM σ _) := putless_step (by simp)

theorem putless_deref {d : Option Addr} : Putless (deref d : MetaM σ _) := by
  cases d <;> trivial

theorem putless_fileKey {isRoot : Bool} : Putless (fileKey p isRoot n : MetaM σ _) :=
  .ite trivial (putless_fullPath.bind fun _ => trivial)

theorem putless_newKey : Putless (newKey p n mode : MetaM σ _) :=
  putless_readDentry.bind fun _ => putless_fileKey.bind fun _ => trivial

theorem putless_isRemoteDirExist : Putless (isRemoteDirExist st path) := (putless_step (by simp)).bind fun _ => trivial

theorem putless_addVirtualDir : Putless (addVirtualDir opt p n : MetaM σ _) :=
  putless_readDentry.bind fun _ => (putless_step (by simp)).bind fun _ => putless_incTtl.bind fun _ => trivial

theorem putless_revalidate : Putless (revalidate opt st a) :=
  putless_readDentry.bind fun _ => (Prog.Preserves.ite putless_pathWithSlash putless_fullPath).bind fun _ =>
    (putless_step (by simp)).bind fun _ => (putless_step (by simp)).bind fun _ =>
      .ite (putless_incTtl.bind fun _ => trivial) ((putless_step (by simp)).bind fun _ => putless_incTtl.bind fun _ => trivial)

/-! ### What a creation knows -/

/-- What is known of the steps so far and of the cache stays known as the cache grows. -/
def StaysKnown (K : Hist σ → LocalMemMeta → Prop) : Prop := ∀ hist, Lasts (K hist)

/-- And when the thread takes a step that puts nothing. -/
def Carried (K : Hist σ → LocalMemMeta → Prop) : Prop :=
  ∀ hist m l s, (∀ key, l ≠ .put key) → K hist m → K (hist ++ [(l, s)]) m

variable {reqs : ι → Request} {K : Hist σ → LocalMemMeta → Prop} {hist : Hist σ} {l : MetaAct} {s : World σ}

theorem Missed.append (h : Missed view path hist) : Missed view path (hist ++ [(l, s)]) := by
  obtain ⟨t₁, t₂, hsub, h₁, h₂⟩ := h
  exact ⟨t₁, t₂, hsub.trans (List.sublist_append_left _ _), h₁, h₂⟩

theorem NoPut.append (h : NoPut hist) (hl : ∀ key, l ≠ .put key) : NoPut (hist ++ [(l, s)]) := by
  intro e he
  rcases List.mem_append.mp he with he | he
  · exact h e he
  · obtain rfl := List.mem_singleton.mp he
    exact hl

/-- The thread `i` keeps to `Request.Checks`, and what it knows is about its steps and the cache. -/
abbrev Checking (view : σ → Bucket) (reqs : ι → Request) (i : ι) (P : Hist σ → LocalMemMeta → Prop) (q : MetaM σ α)
    (Q : α → Hist σ → LocalMemMeta → Prop) : Prop :=
  q.Heeds CacheInv Grown (fun i => (reqs i).Checks view) i (fun hist s => P hist s.cache) fun r hist s => Q r hist s.cache

theorem checks_putless {r : Request} (hl : ∀ key, l ≠ .put key) : r.Checks view hist l s :=
  fun _ _ _ _ key hkey => absurd hkey (hl key)

/-- What is known elsewhere about the steps of a request, while it puts nothing. -/
theorem checking_frames {P : LocalMemMeta → Prop} {Q : α → LocalMemMeta → Prop} {q : MetaM σ α}
    (hq : Frames view (fun _ _ _ => True) (fun s => P s.cache) q fun r s => Q r s.cache) (hputless : Putless q) (hknown : StaysKnown K)
    (hcarried : Carried K) : Checking view reqs i (fun hist m => P m ∧ K hist m) q fun r hist m => Q r m ∧ K hist m :=
  Prog.heeds_moves hq hputless (fun _ _ _ hs h => ⟨h.inv, hs, h.inv, h.grow⟩) (fun _ _ _ hl _ => checks_putless hl)
    (fun hist _ _ _ hl hg hk => hcarried _ _ _ _ hl (hknown hist _ _ hg.before hg.grow hk))
    fun hist _ _ hg hk => hknown hist _ _ hg.before hg.grow hk

/-- What is known, carried through steps with labels in `A`. -/
theorem heeds_tame {G : ι → Hist σ → MetaAct → World σ → Prop} {A : MetaAct → Prop} {q : MetaM σ α} (hq : Tame q) (hlabels : q.Labels A)
    (hG : ∀ hist l s, A l → K hist s.cache → G i hist l s) (hknown : StaysKnown K)
    (hcarried : ∀ hist m l s, A l → K hist m → K (hist ++ [(l, s)]) m) :
    q.Heeds CacheInv Grown G i (fun hist s => K hist s.cache) fun _ hist s => K hist s.cache := by
  have h : q.Heeds CacheInv Grown G i (fun hist s => True ∧ K hist s.cache) fun _ hist s => True ∧ K hist s.cache :=
    Prog.heeds_moves (grows_tame hq) hlabels (fun _ _ _ _ h => ⟨h.after, h⟩) hG
      (fun hist _ _ _ hl hg hk => hcarried _ _ _ _ hl (hknown hist _ _ hg.before hg.grow hk))
      fun hist _ _ hg hk => hknown hist _ _ hg.before hg.grow hk
  exact (h.post fun _ _ hx => ⟨hx.1, hx.2.2⟩).pre fun _ hx => ⟨hx.1, trivial, hx.2⟩

theorem checking_tame {q : MetaM σ α} (hq : Tame q) (hputless : Putless q) (hknown : StaysKnown K) (hcarried : Carried K) :
    Checking view reqs i K q fun _ => K :=
  heeds_tame hq hputless (fun _ _ _ hl _ => checks_putless hl) hknown hcarried

/-! ### Lookups that miss -/

/-- Nothing was put, and the entry `n` of the directory `pino` was missed. -/
def MissedAt (view : σ → Bucket) (pino : InodeID) (n : Str) (hist : Hist σ) (m : LocalMemMeta) : Prop :=
  NoPut hist ∧ ∃ p, DirAt pino p m ∧ Missed view (m.dirPrefix p ++ n) hist

theorem known_missedAt : StaysKnown (MissedAt view pino n) := by
  rintro hist m m' hm hg ⟨hput, p, hp, hmiss⟩
  exact ⟨hput, p, dirAt_grow m m' hm hg hp, by rwa [dirPrefix_grow hm hg hp.2]⟩

theorem carried_missedAt : Carried (σ := σ) (MissedAt view pino n) := by
  rintro hist m l s hl ⟨hput, p, hp, hmiss⟩
  exact ⟨hput.append hl, p, hp, hmiss.append⟩

theorem known_noPut : StaysKnown fun (hist : Hist σ) _ => NoPut hist := fun _ _ _ _ _ h => h

theorem carried_noPut : Carried fun (hist : Hist σ) _ => NoPut hist := fun _ _ _ _ hl h => h.append hl

/-- A lookup that puts nothing and finds something. -/
theorem checking_found {P : Hist σ → World σ → Prop} {q : MetaM σ (Option Addr)} (hq : Tame q) (hputless : Putless q)
    (hfound : q.Returns (· ≠ none)) : q.Heeds CacheInv Grown (fun i => (reqs i).Checks view) i P fun r hist s =>
      r = none → MissedAt view pino n hist s.cache := by
  have h : Checking view reqs i (fun _ _ => True) q fun _ _ _ => True :=
    checking_tame hq hputless (fun _ => lasts_true) fun _ _ _ _ _ _ => trivial
  exact ((h.returns hfound).post fun r x hx => ⟨hx.2.1, fun hnone => absurd hnone hx.1⟩).pre fun x hx => ⟨hx.1, trivial⟩

section
variable (hc : c.Misses view)
include hc

/-- The answer of `head_file`, after what was known before. -/
theorem checking_head {key : Str} {resp : HeadFileResp} (hK : StaysKnown K) :
    Checking view reqs i K (headFile (s3Stor c) key resp) fun r hist m =>
      ∃ hist' t, hist = hist' ++ [(.head key, t)] ∧ K hist' m ∧ (r.exist = false → ¬ (view t.stor).Holds key) := by
  refine Prog.heeds_lift ?_ fun hist s hs hk => ⟨checks_putless (by simp), ?_⟩
  · rintro r hist s s' hg ⟨hist', t, hhist, hk, hnone⟩
    exact ⟨hist', t, hhist, hK hist' _ _ hg.before hg.grow hk, hnone⟩
  · have hsame : ∀ t : σ, CacheInv { s with stor := t } ∧ Grown s { s with stor := t } := fun t => ⟨hs, hs, hs, .refl _⟩
    simp only [zoom, s3Stor]
    cases hr : c.headObject key s.stor with
    | ok r t =>
      refine ⟨hsame t, fun r' s' heq => ?_⟩
      obtain ⟨rfl, rfl⟩ := Result.ok.inj heq
      exact ⟨hist, s, rfl, hk, by simp⟩
    | error e t =>
      cases e with
      | notFound msg =>
        refine ⟨hsame t, fun r' s' heq => ?_⟩
        obtain ⟨rfl, rfl⟩ := Result.ok.inj heq
        exact ⟨hist, s, rfl, hk, fun _ => hc _ _ _ _ hr⟩
      | other msg => exact ⟨hsame t, fun r' s' heq => by cases heq⟩

theorem checking_getRemoteObj : Checking view reqs i (fun hist m => DirAt pino p m ∧ NoPut hist) (getRemoteObj (s3Stor c) p n)
    fun r hist m => DirAt pino p m ∧ NoPut hist ∧ (r.2.1 = false → Missed view (m.dirPrefix p ++ n) hist) := by
  have hpath : Checking view reqs i (fun hist m => DirAt pino p m ∧ NoPut hist) (pathWithSlash p) fun pre hist m =>
      PrefixAt pino p pre m ∧ NoPut hist := by
    have hread : Frames view (fun _ _ _ => True) (fun s => DirAt pino p s.cache) (pathWithSlash p) fun pre s =>
        PrefixAt pino p pre s.cache := by
      refine frames_read (DirAt pino p) (fun pre m => PrefixAt pino p pre m) (fun _ => readOnly_getFullPathWithSlash)
        (fun pre => prefixAt_grow) fun now m r m' hm hp hr => ?_
      rw [run_getFullPathWithSlash hm hp.2] at hr
      obtain ⟨rfl, -⟩ := Result.ok.inj hr
      exact ⟨hp, rfl⟩
    exact checking_frames hread putless_pathWithSlash known_noPut carried_noPut
  refine hpath.bind fun pre => ?_
  have hknown : StaysKnown fun (hist : Hist σ) m => PrefixAt pino p pre m ∧ NoPut hist := fun _ m m' hm hg h =>
    ⟨prefixAt_grow m m' hm hg h.1, h.2⟩
  have hcarried : Carried fun (hist : Hist σ) m => PrefixAt pino p pre m ∧ NoPut hist := fun _ _ _ _ hl h => ⟨h.1, h.2.append hl⟩
  refine Prog.Sat.bind (checking_tame tame_headResp (putless_step (by simp)) hknown hcarried) fun resp => ?_
  refine Prog.Sat.bind (checking_head hc hknown) fun resp => ?_
  cases hexist : resp.exist with
  | true =>
    refine Prog.sat_pure ?_
    rintro x ⟨hx, hist, t, hhist, ⟨hp, hput⟩, -⟩
    exact ⟨hx, hp.1, hhist ▸ hput.append (by simp), by simp⟩
  | false =>
    -- what the second look finds stands behind the first
    have hfirst : StaysKnown fun (hist : Hist σ) m => PrefixAt pino p pre m ∧ NoPut hist ∧
        ∃ t, [(MetaAct.head (pre ++ n), t)].Sublist hist ∧ ¬ (view t.stor).Holds (pre ++ n) := fun _ m m' hm hg h =>
      ⟨prefixAt_grow m m' hm hg h.1, h.2⟩
    refine Prog.Sat.bind (Prog.Sat.pre (checking_head hc hfirst) ?_) fun resp' => Prog.sat_pure ?_
    · rintro x ⟨hx, hist, t, hhist, ⟨hp, hput⟩, hnone⟩
      refine ⟨hx, hp, hhist ▸ hput.append (by simp), t, ?_, hnone hexist⟩
      rw [hhist]
      exact List.sublist_append_right _ _
    · rintro x ⟨hx, hist, t₂, hhist, ⟨⟨hp, rfl⟩, hput, t₁, hsub, hnone₁⟩, hnone₂⟩
      refine ⟨hx, hp, hhist ▸ hput.append (by simp), fun hfalse => ⟨t₁, t₂, ?_, hnone₁, hnone₂ hfalse⟩⟩
      rw [hhist]
      exact hsub.append (.refl _)

theorem checking_findRemote : Checking view reqs i (fun hist _ => NoPut hist) (findRemote opt (s3Stor c) pino n) fun r hist m =>
    r = none → MissedAt view pino n hist m := by
  have hdir : Checking view reqs i (fun hist _ => True ∧ NoPut hist) (getDentry pino) fun r hist m =>
      (∀ a, r = some a → DirAt pino a m) ∧ NoPut hist := checking_frames frames_getDir putless_getDentry known_noPut carried_noPut
  refine Prog.Sat.bind (hdir.pre fun x hx => ⟨hx.1, trivial, hx.2⟩) fun parent => ?_
  cases parent with
  | none => trivial
  | some p =>
    refine Prog.Sat.bind ((checking_getRemoteObj hc).pre fun x hx => ⟨hx.1, hx.2.1 p rfl, hx.2.2⟩) ?_
    rintro ⟨obj, exist, isDir⟩
    cases exist with
    | true =>
      refine checking_found ?_ ?_ ?_
      · exact (tame_cache fun _ => kept_createDentryFromObj).bind fun _ => tame_incTtl.bind fun _ => tame_pure
      · exact (putless_step (by simp)).bind fun _ => putless_incTtl.bind fun _ => trivial
      · exact Prog.Returns.bind fun _ => Prog.Returns.bind fun _ => Prog.returns_pure (by simp)
    | false =>
      have hmissed : Checking view reqs i (MissedAt view pino n) (do
          let pre ← pathWithSlash p
          let exist ← isRemoteDirExist (s3Stor c) (pre ++ n ++ slash)
          if exist then some <$> addVirtualDir opt p n else pure none) fun r hist m => r = none → MissedAt view pino n hist m := by
        refine Prog.Sat.bind (checking_tame tame_pathWithSlash putless_pathWithSlash known_missedAt carried_missedAt) fun pre => ?_
        refine Prog.Sat.bind (checking_tame (tame_call.bind fun _ => tame_pure) putless_isRemoteDirExist known_missedAt
          carried_missedAt) fun exist => ?_
        cases exist with
        | false => exact Prog.sat_pure fun x hx => ⟨hx.1, fun _ => hx.2⟩
        | true =>
          exact checking_found tame_addVirtualDir.map putless_addVirtualDir.map (Prog.Returns.bind fun _ => Prog.returns_pure (by simp))
      exact hmissed.pre fun x hx => ⟨hx.1, hx.2.2.1, p, hx.2.1, hx.2.2.2 rfl⟩

theorem checking_findDentry : Checking view reqs i (fun hist _ => NoPut hist) (findDentry opt (s3Stor c) pino n false)
    fun r hist m => r = none → MissedAt view pino n hist m := by
  refine Prog.Sat.bind (checking_tame (tame_cache fun _ => kept_findDentry) (putless_step (by simp)) known_noPut carried_noPut)
    fun r => ?_
  cases r with
  | none => exact checking_findRemote hc
  | some a =>
    refine checking_found ?_ ?_ ?_
    · exact tame_isExpired.bind fun _ => .ite tame_revalidate tame_pure
    · exact (putless_step (by simp)).bind fun _ => .ite putless_revalidate trivial
    · refine Prog.Returns.bind fun expired => ?_
      split
      · exact returns_revalidate.mono (by simp)
      · exact Prog.returns_pure (by simp)

/-- A creation looks before it puts. -/
theorem checking_createDentry (hi : reqs i = .create pino n mode) :
    Checking view reqs i (fun hist _ => NoPut hist) (createDentry opt (s3Stor c) pino n mode) fun _ _ _ => True := by
  have hdone : ∀ {α : Type} {q : MetaM σ α}, Tame q → Putless q → Checking view reqs i (fun _ _ => True) q fun _ _ _ => True :=
    fun hq hputless => checking_tame hq hputless (fun _ => lasts_true) fun _ _ _ _ _ _ => trivial
  refine (checking_findDentry hc).bind fun r => ?_
  cases r with
  | some d => exact Prog.sat_pure fun x hx => ⟨hx.1, trivial⟩
  | none =>
    have hdir : Checking view reqs i (fun hist m => True ∧ MissedAt view pino n hist m) (getDentry pino >>= fun d => deref d)
        fun p hist m => DirAt pino p m ∧ MissedAt view pino n hist m := by
      refine checking_frames (frames_getDir.bind fun d => ?_) (putless_getDentry.bind fun d => putless_deref) known_missedAt
        carried_missedAt
      cases d with
      | none => trivial
      | some p => exact Prog.moves_pure fun s hs => hs p rfl
    refine Prog.Sat.pre (hdir.bind fun p => ?_) fun x hx => ⟨hx.1, trivial, hx.2 rfl⟩
    have hkey : Checking view reqs i (fun hist m => DirAt pino p m ∧ MissedAt view pino n hist m) (newKey p n mode)
        fun key hist m => IsKey pino n mode key m ∧ MissedAt view pino n hist m :=
      checking_frames frames_newKey putless_newKey known_missedAt carried_missedAt
    refine hkey.bind fun key => ?_
    have hread : Checking view reqs i (fun hist m => IsKey pino n mode key m ∧ MissedAt view pino n hist m) (readDentry p)
        fun _ hist m => IsKey pino n mode key m ∧ MissedAt view pino n hist m :=
      checking_frames (frames_mute (mute_quiet quiet_readDentry) lasts_key) putless_readDentry known_missedAt carried_missedAt
    have hput : ∀ metaData : List (Str × Str), Checking view reqs i (fun hist m => IsKey pino n mode key m ∧ MissedAt view pino n hist m)
        (call (.put key) ((s3Stor c).putFile { objKey := key, buf := none, size := 0, metaData })) fun _ _ _ => True := by
      refine fun metaData => Prog.heeds_lift (fun _ _ _ _ _ _ => trivial) fun hist s hs hk => ⟨?_, ?_, fun _ _ _ => trivial⟩
      · obtain ⟨⟨p₁, hp₁, rfl⟩, hput, p₂, hp₂, hmiss⟩ := hk
        obtain rfl := Option.some.inj (hp₁.1.symm.trans hp₂.1)
        rintro pino' n' mode' heq key hkey
        rw [hi] at heq
        obtain ⟨rfl, rfl, rfl⟩ := Request.create.inj heq
        exact ⟨p₁, hp₁.1, (MetaAct.put.inj hkey).symm, hmiss, hput⟩
      · simp only [zoom]
        cases (s3Stor c).putFile { objKey := key, buf := none, size := 0, metaData } s.stor
        · exact ⟨hs, hs, hs, .refl _⟩
        · exact ⟨hs, hs, hs, .refl _⟩
    exact hread.bind fun d => (hput _).bind fun _ => hdone (tame_cache fun _ => kept_createNew) (putless_step (by simp))

/-- A request takes its steps as `Request.Checks` asks of it. -/
theorem checking_request {fuel : Nat} : Checking view reqs i (fun hist _ => NoPut hist) ((reqs i).prog opt (s3Stor c) fuel)
    fun _ _ _ => True := by
  have hother : (∀ pino n mode, reqs i ≠ .create pino n mode) → Checking view reqs i (fun hist _ => NoPut hist)
      ((reqs i).prog opt (s3Stor c) fuel) fun _ _ _ => True := by
    intro hi
    have h : Checking view reqs i (fun _ _ => True) ((reqs i).prog opt (s3Stor c) fuel) fun _ _ _ => True :=
      heeds_tame (tame_request (reqs i)) (tame_request (reqs i)).labels (fun _ _ _ _ _ pino n mode heq => absurd heq (hi pino n mode))
        (fun _ => lasts_true) fun _ _ _ _ _ _ => trivial
    exact h.pre fun x hx => ⟨hx.1, trivial⟩
  cases hi : reqs i with
  | create pino n mode => exact Prog.Sat.map (checking_createDentry hc hi)
  | _ => exact hi ▸ hother (by simp [hi])

end

/-- Each step of every run of requests meets `G`, when each request sees to it for its own. -/
theorem requests_heed {G : ι → Hist σ → MetaAct → World σ → Prop} {opt : ι → MetaOpt} {fuel : ι → Nat}
    (hthreads : ∀ i, ((reqs i).prog (opt i) st (fuel i)).Heeds CacheInv Grown G i (fun hist _ => hist = []) fun _ _ _ => True)
    (hs : CacheInv s) {y : Pool ι MetaAct Err (World σ) Unit}
    (h : Pool.Runs (fun _ _ _ => True) CacheStays (requestPool opt st fuel reqs s) y) : Each G y.conf.past := by
  have henv : ∀ s s' : World σ, CacheStays s s' → CacheInv s → CacheInv s' ∧ Grown s s' := by
    intro s s' he hs
    have hgrown := grown_of_eq hs he
    exact ⟨hgrown.after, hgrown⟩
  exact Pool.each_of_heeds henv hthreads hs h

/-- In every state that any interleaving of requests leads to, while other clients change the bucket in any way: whatever
    a creation put is the object of its own entry, it is the only object it put, and the store had told it before, in its
    own earlier steps, that there was neither a file nor a directory of this path. -/
theorem creation_looked {opt : ι → MetaOpt} {fuel : ι → Nat} (hc : c.Misses view) {s : World σ} (hs : CacheInv s)
    {y : Pool ι MetaAct Err (World σ) Unit}
    (h : Pool.Runs (fun _ _ _ => True) CacheStays (requestPool opt (s3Stor c) fuel reqs s) y) (hi : reqs i = .create pino n mode)
    {before after : List (ι × MetaAct × World σ)} {key : Str} {t : World σ}
    (hput : y.conf.past = before ++ (i, .put key, t) :: after) :
    (∀ key' t', (i, MetaAct.put key', t') ∉ before) ∧ ∃ p t₁ t₂, t.cache.lookup pino = some p ∧
      key = entryKey (t.cache.dirPrefix p ++ n) (mode &&& S_IFDIR != 0) ∧
      [(i, MetaAct.head (t.cache.dirPrefix p ++ n), t₁), (i, .head (t.cache.dirPrefix p ++ n ++ slash), t₂)].Sublist before ∧
      ¬ (view t₁.stor).Holds (t.cache.dirPrefix p ++ n) ∧ ¬ (view t₂.stor).Holds (t.cache.dirPrefix p ++ n ++ slash) := by
  have hstart : ∀ hist : Hist σ, hist = [] → NoPut hist := by
    rintro _ rfl e he
    cases he
  have heach : Each (fun i => (reqs i).Checks view) y.conf.past :=
    requests_heed (fun i => Prog.Sat.pre (checking_request hc) fun x hx => ⟨hx.1, hstart _ hx.2⟩) hs h
  obtain ⟨p, hp, hkey, ⟨t₁, t₂, hsub, hnone₁, hnone₂⟩, hnoput⟩ := heach before i _ t after hput pino n mode hi key rfl
  refine ⟨fun key' t' hmem => ?_, p, t₁, t₂, hp, hkey, sublist_of_own hsub, hnone₁, hnone₂⟩
  exact hnoput (.put key', t') (by simp [own, hmem]) key' rfl

def isPut (key : Str) (e : Bool × MetaAct × World Log) : Bool := !e.1 && e.2.1 = .put key

/-- The creation put its object when a removal of the same name had begun. -/
theorem both_put : ∃ y, bothRequests.exec (fun _ _ _ => true) ([true] ++ List.replicate 13 false ++ List.replicate 10 true) = some y ∧
    y.conf.past.any (isPut ['f']) = true := (Option.any_eq_true _ _).mp (by decide +kernel)

theorem creation_looked_both : ∃ y, Pool.Runs (fun _ _ _ => True) CacheStays bothRequests y ∧
    ∃ before after key t, y.conf.past = before ++ (false, .put key, t) :: after ∧
    (∀ key' t', (false, MetaAct.put key', t') ∉ before) ∧ ∃ p t₁ t₂, t.cache.lookup ROOT_INODE_ID = some p ∧
      key = entryKey (t.cache.dirPrefix p ++ ['f']) (S_IFREG &&& S_IFDIR != 0) ∧
      [(false, MetaAct.head (t.cache.dirPrefix p ++ ['f']), t₁), (false, .head (t.cache.dirPrefix p ++ ['f'] ++ slash), t₂)].Sublist before ∧
      ¬ (t₁.stor.bucket).Holds (t.cache.dirPrefix p ++ ['f']) ∧ ¬ (t₂.stor.bucket).Holds (t.cache.dirPrefix p ++ ['f'] ++ slash) := by
  obtain ⟨y, hy, hany⟩ := both_put
  obtain ⟨⟨i, l, t⟩, hmem, hput⟩ := List.any_eq_true.mp hany
  simp only [isPut, Bool.and_eq_true, Bool.not_eq_true', decide_eq_true_eq] at hput
  obtain ⟨rfl, rfl⟩ := hput
  obtain ⟨before, after, hsplit⟩ := List.append_of_mem hmem
  have hruns : Pool.Runs (fun _ _ _ => True) CacheStays (requestPool (fun _ => ⟨0, 0, 60⟩) (s3Stor Log.client) (fun _ => 1)
      createAndRemove (newWorld [])) y := Pool.runs_exec (fun _ _ _ _ => trivial) hy
  have hcreate : createAndRemove false = .create ROOT_INODE_ID ['f'] S_IFREG := rfl
  exact ⟨y, hruns, before, after, _, t, hsplit,
    creation_looked Log.client_misses (show CacheInv (newWorld []) from .new ⟨0, 0, 60⟩ ⟨0, 0⟩) hruns hcreate hsplit⟩

end MetaImpl

end Catfs
