import Catfs.BucketOrder
import Catfs.Theorems.Refresh

/-! # Lookup and listing

A lookup asks for the object and the marker of the directory, and then for the first entry below the directory; a
listing shows every entry. They agree on a name unless all that the bucket holds for it lies deeper than that
first entry, or the directory is served from the cache (`lookup_agrees_iff`). -/

namespace Catfs

open Lib MetaM LocalMemMeta
open EStateM (Result)

namespace Bucket

/-- The first entry of the listing of `pre` is an object. -/
def FirstIsObject (b : Bucket) (pre : Str) : Prop :=
  ∃ n, '/' ∉ n ∧ b.Holds (pre ++ n) ∧ ∀ k rest, '/' ∉ k → b.Holds (pre ++ k ++ slash ++ rest) → pre ++ n < pre ++ k ++ slash

/-- What the requests of a lookup of `key` see: the object, or the first entry of the directory. -/
def Seen (b : Bucket) (key : Str) : Prop := b.Holds key ∨ b.FirstIsObject (key ++ slash)

end Bucket

/-! ### Entries -/

theorem isPrefix_append {pre n : Str} : Log.isPrefix pre (pre ++ n) = true ↔ '/' ∈ n := by
  simp [Log.isPrefix]

theorem not_isPrefix {pre n : Str} (h : '/' ∉ n) : Log.isPrefix pre (pre ++ n) = false := by
  simpa [Log.isPrefix] using h

theorem isPrefix_slash {pre n : Str} : Log.isPrefix pre (pre ++ n ++ slash) = true := by
  rw [List.append_assoc]
  exact isPrefix_append.mpr (by simp [slash])

/-- A key comes before the keys that go on after it. -/
theorem lt_append {s t : Str} (h : t ≠ []) : s < s ++ t := by
  induction s with
  | nil =>
    cases t with
    | nil => exact absurd rfl h
    | cons c t => exact List.nil_lt_cons c t
  | cons c s ih => exact List.cons_lt_cons_iff.mpr (.inr ⟨rfl, ih⟩)

section
variable {b : Bucket} {pre n : Str} {es : List Str}

theorem Bucket.Entries.key (h : b.Entries pre es) (hn : '/' ∉ n) : pre ++ n ∈ es ↔ b.Holds (pre ++ n) := by
  rw [h.mem]
  constructor
  · rintro (⟨k, -, -, hk⟩ | ⟨k, he, -⟩)
    · exact hk
    · rw [List.append_assoc] at he
      exact absurd (List.append_cancel_left he ▸ by simp [slash]) hn
  · exact fun hk => .inl ⟨n, rfl, hn, hk⟩

theorem Bucket.Entries.dir (h : b.Entries pre es) (hn : '/' ∉ n) :
    pre ++ n ++ slash ∈ es ↔ ∃ rest, b.Holds (pre ++ n ++ slash ++ rest) := by
  rw [h.mem]
  constructor
  · rintro (⟨k, he, hk, -⟩ | ⟨k, -, -, hk⟩)
    · rw [List.append_assoc] at he
      exact absurd (List.append_cancel_left he ▸ by simp [slash]) hk
    · exact hk
  · exact fun hk => .inr ⟨n, rfl, hn, hk⟩

/-- The first entry tells whether an object comes first. -/
theorem Bucket.Entries.firstIsObject (h : b.Entries pre es) :
    b.FirstIsObject pre ↔ ∃ e, es.head? = some e ∧ Log.isPrefix pre e = false := by
  constructor
  · rintro ⟨n, hn, hk, hfirst⟩
    have hmem := (h.key hn).mpr hk
    cases hes : es with
    | nil =>
      rw [hes] at hmem
      cases hmem
    | cons e rest =>
      refine ⟨e, rfl, ?_⟩
      have he : e ∈ es := hes ▸ List.mem_cons_self ..
      rcases (h.mem e).mp he with ⟨k, rfl, hk', -⟩ | ⟨k, rfl, hk', r, hr⟩
      · exact not_isPrefix hk'
      · -- A common prefix that comes first comes before the object.
        have hlt := hfirst k r hk' hr
        have hle : pre ++ k ++ slash < pre ++ n ∨ pre ++ k ++ slash = pre ++ n := by
          rw [hes] at hmem
          rcases List.mem_cons.mp hmem with heq | hmem
          · exact .inr heq.symm
          · have hs := h.sorted
            rw [hes] at hs
            exact .inl ((List.pairwise_cons.mp hs).1 _ hmem)
        rcases hle with hgt | heq
        · exact absurd hlt (lt_asymm hgt)
        · exact absurd (heq ▸ hlt) (lt_irrefl _)
  · rintro ⟨e, he, hp⟩
    obtain ⟨rest, rfl⟩ : ∃ rest, es = e :: rest := by
      cases es with
      | nil => cases he
      | cons x rest => exact ⟨rest, by rw [Option.some.inj he]⟩
    rcases (h.mem e).mp (List.mem_cons_self ..) with ⟨n, rfl, hn, hk⟩ | ⟨k, rfl, -, -⟩
    · refine ⟨n, hn, hk, fun k r hk' hr => ?_⟩
      have hmem := (h.dir hk').mpr ⟨r, hr⟩
      rcases List.mem_cons.mp hmem with heq | hmem
      · rw [← heq, isPrefix_slash] at hp
        cases hp
      · exact (List.pairwise_cons.mp h.sorted).1 _ hmem
    · rw [isPrefix_slash] at hp
      cases hp

end

/-- The entries that a log lists are those of its bucket. -/
theorem Log.bucket_entries {log : Log} {pre : Str} : log.bucket.Entries pre (log.entries pre) := by
  refine ⟨entries_sorted, fun e => ?_⟩
  rw [mem_entries]
  constructor
  · exact Or.imp And.right And.right
  · refine Or.imp (fun h => ⟨?_, h⟩) fun h => ⟨?_, h⟩
    · obtain ⟨n, rfl, hn, -⟩ := h
      exact not_isPrefix hn
    · obtain ⟨n, rfl, -⟩ := h
      exact isPrefix_slash

/-- The client over a log lists in order. -/
theorem Log.client_inOrder : Log.client.InOrder Log.bucket where
  entries log pre := ⟨log.entries pre, bucket_entries⟩
  list log req es _ hmax h := by
    obtain rfl : es = log.entries req.pre :=
      h.sorted.eq_of_mem_iff entries_sorted fun e => (h.mem e).trans (bucket_entries.mem e).symm
    refine ⟨_, log, rfl, rfl, ?_, rfl, rfl, fun ht => ?_⟩
    · simp only [listing, List.map_map]
      exact List.map_id _
    · have hne : page (Log.markerOf req.marker) req.maxKeys (log.entries req.pre) ≠ [] := page_ne_nil hmax ht
      rw [List.getLast?_eq_some_getLast hne]
      exact congrArg (fun e => some (Option.getD e [])) (List.getLast?_eq_some_getLast hne).symm

namespace MetaImpl
variable {σ : Type} {c : S3Client σ} {view : σ → Bucket} {opt : MetaOpt} {m m' : LocalMemMeta} {t t' : σ}
  {now : Timespec} {garbage : Garbage} {a : Addr} {ino : InodeID} {n pre : Str} {b : Bucket} {es : List Str}

/-! ### What a lookup sees -/

variable (m t now garbage) in
theorem run_headFile (hc : c.Serves view) (key : Str) (resp : HeadFileResp) : ∃ resp' t',
    (headFile (s3Stor c) key resp).run ⟨m, t, now, garbage⟩ = .ok resp' ⟨m, t', now, garbage⟩ ∧ view t' = view t ∧
      (resp'.exist = true ↔ (view t).Holds key) ∧ (resp'.exist = true → resp'.obj.mode = none) := by
  cases hk : view t key with
  | some body =>
    obtain ⟨r, t', hr, -, hv⟩ := hc.head t key body hk
    have hcall : (s3Stor c).headFile { objKey := key } resp t =
        .ok { exist := true, obj := objInfo (c.garbage t key) [] r.contentLength r.lastModified } t' := by simp only [s3Stor, hr]
    exact ⟨_, t', run_call_ok hcall, hv, by simp [Bucket.Holds, hk], fun _ => rfl⟩
  | none =>
    obtain ⟨msg, t', hr, hv⟩ := hc.headNone t key hk
    have hcall : (s3Stor c).headFile { objKey := key } resp t = .ok { resp with exist := false } t' := by
      simp only [s3Stor, hr]
    exact ⟨_, t', run_call_ok hcall, hv, by simp [Bucket.Holds, hk], fun h => by cases h⟩

theorem run_headResp : (headResp : MetaM σ _).run ⟨m, t, now, garbage⟩ =
    .ok (HeadFileResp.uninit garbage) ⟨m, t, now, garbage⟩ := rfl

variable (t now garbage n) in
/-- The two `HEAD` requests: for the object, and for the marker of the directory. -/
theorem run_getRemoteObj (hc : c.Serves view) (hm : Inv m) (ha : a < m.heapNext) : ∃ obj exist isDir t',
    (getRemoteObj (s3Stor c) a n).run ⟨m, t, now, garbage⟩ = .ok (obj, exist, isDir) ⟨m, t', now, garbage⟩ ∧
      view t' = view t ∧ (exist = true ↔ (view t).Holds (m.dirPrefix a ++ n) ∨ (view t).Holds (m.dirPrefix a ++ n ++ slash)) ∧
      (exist = true → (isDir = false ↔ (view t).Holds (m.dirPrefix a ++ n)) ∧ obj.mode = none) := by
  obtain ⟨resp, t₁, hrun, hv, hexist, hmode⟩ :=
    run_headFile m t now garbage hc (m.dirPrefix a ++ n) (HeadFileResp.uninit garbage)
  have hstart : (getRemoteObj (s3Stor c) a n).run ⟨m, t, now, garbage⟩ = (if resp.exist then pure (resp.obj, true, false)
      else do
        let resp ← headFile (s3Stor c) (m.dirPrefix a ++ n ++ slash) resp
        pure (resp.obj, resp.exist, resp.exist) : MetaM σ _).run ⟨m, t₁, now, garbage⟩ := by
    rw [getRemoteObj, Prog.run_bind_ok (run_pathWithSlash hm ha), Prog.run_bind_ok run_headResp, Prog.run_bind_ok hrun]
  cases he : resp.exist with
  | true =>
    rw [he] at hstart
    refine ⟨resp.obj, true, false, t₁, hstart, hv, ?_, fun _ => ⟨?_, hmode he⟩⟩
    · simp [hexist.mp he]
    · simp [hexist.mp he]
  | false =>
    have hno : ¬ (view t).Holds (m.dirPrefix a ++ n) := fun h => by
      rw [hexist.mpr h] at he
      cases he
    obtain ⟨resp', t₂, hrun', hv', hexist', hmode'⟩ :=
      run_headFile m t₁ now garbage hc (m.dirPrefix a ++ n ++ slash) resp
    rw [he, if_neg Bool.false_ne_true, Prog.run_bind_ok hrun'] at hstart
    rw [hv] at hexist'
    refine ⟨resp'.obj, resp'.exist, resp'.exist, t₂, hstart, hv'.trans hv, ?_, fun h => ⟨?_, hmode' h⟩⟩
    · simp [hno, hexist']
    · simp [hno, h]

variable (m t now garbage) in
/-- The listing of one entry. -/
theorem run_isRemoteDirExist (ho : c.InOrder view) (path : Str) : ∃ exist t',
    (isRemoteDirExist (s3Stor c) path).run ⟨m, t, now, garbage⟩ = .ok exist ⟨m, t', now, garbage⟩ ∧ view t' = view t ∧
      (exist = true ↔ (view t).FirstIsObject path) := by
  obtain ⟨es, hes⟩ := ho.entries t path
  obtain ⟨r, t', hr, hv, hpage⟩ := ho.list t { delimiter := slash, marker := [], maxKeys := 1, pre := path } es rfl
    Nat.one_pos hes
  have hcall : (s3Stor c).listObjects { delimiter := [], pre := path, max := 1, marker := [] } t = .ok (pageResp (c.garbage t) r) t' := by
    have hreq : orServerError (c.listObjects { delimiter := slash, marker := [], maxKeys := 1, pre := path }) t = .ok r t' := by
      rw [orServerError, hr]
    exact bind_ok hreq
  refine ⟨!(pageResp (c.garbage t) r).objs.isEmpty, t', ?_, hv, ?_⟩
  · rw [isRemoteDirExist, Prog.run_bind_ok (run_call_ok hcall)]
    rfl
  · have hcontents := hpage.contents
    rw [show Log.markerOf [] = none from rfl, page, after_none] at hcontents
    rw [hes.firstIsObject]
    have hobjs : (pageResp (c.garbage t) r).objs.isEmpty = (r.contents.map S3Object.key).isEmpty := by
      simp only [pageResp]
      cases r.contents <;> rfl
    rw [hobjs, hcontents]
    cases es with
    | nil => simp
    | cons e rest => cases hp : Log.isPrefix path e <;> simp [hp]

/-- What a lookup returns for the name `n`: a file if there is an object, and else a directory if the first entry below
    it is an object. -/
def Kind (b : Bucket) (key : Str) (k : Bool) : Prop :=
  k = false ∧ b.Holds key ∨ k = true ∧ ¬ b.Holds key ∧ b.FirstIsObject (key ++ slash)

theorem firstIsObject_marker {path : Str} (h : b.Holds path) : b.FirstIsObject path := by
  refine ⟨[], by simp, by rwa [List.append_nil], fun k rest _ _ => ?_⟩
  rw [List.append_nil, List.append_assoc]
  exact lt_append (by simp [slash])

section
variable {st : Stor σ} {obj : ObjInfo} {exist isDir : Bool} {t₁ t₂ : σ} {garbage₁ garbage₂ : Garbage}

theorem run_getDentry_some (ha : m.lookup ino = some a) :
    (getDentry ino : MetaM σ _).run ⟨m, t, now, garbage⟩ = .ok (some a) ⟨m, t, now, garbage⟩ := by
  refine run_cache_ok ?_
  rw [run_getDentry, ha]

variable (hm : Inv m) (ha : m.lookup ino = some a) (hno : (m.heap a).getChild n = none)
  (hremote : (getRemoteObj st a n).run ⟨m, t, now, garbage⟩ = .ok (obj, exist, isDir) ⟨m, t₁, now, garbage₁⟩)
include hm ha hno hremote

omit hm in
theorem run_findDentry_remote : (findDentry opt st ino n false).run ⟨m, t, now, garbage⟩ = (if exist then do
      let d ← cache (.insert ino n) fun now => createDentryFromObj now ino n obj isDir
      incTtl opt d
      pure (some d)
    else do
      let pre ← pathWithSlash a
      if ← isRemoteDirExist st (pre ++ n ++ slash) then some <$> addVirtualDir opt a n
      else pure none : MetaM σ _).run ⟨m, t₁, now, garbage₁⟩ := by
  rw [findDentry, Prog.run_bind_ok (run_cache_ok (LocalMemMeta.run_findDentry ha)), hno]
  dsimp only
  rw [if_neg Bool.false_ne_true, findRemote, Prog.run_bind_ok (run_getDentry_some ha)]
  dsimp only
  rw [Prog.run_bind_ok hremote]

/-- An object that was found becomes the child. -/
theorem run_findDentry_found (hexist : exist = true) : (findDentry opt st ino n false).run ⟨m, t, now, garbage⟩ =
    .ok (some m.heapNext) ⟨(m.issue.link a n (m.objInode now obj isDir)).set m.heapNext (·.incTtl now opt.dcacheTimeout),
      t₁, now, garbage₁⟩ := by
  rw [run_findDentry_remote ha hno hremote, if_pos hexist,
    Prog.run_bind_ok (run_cache_ok (run_createDentryFromObj ha (hm.indexed _ _ ha).1)), incTtl,
    Prog.run_bind_ok (run_cache_ok run_store)]
  rfl

variable (hexist : exist = false)
include hexist

/-- A directory that is only a part of keys becomes a child with the mode and the owner of its parent. -/
theorem run_findDentry_virtual
    (hlist : (isRemoteDirExist st (m.dirPrefix a ++ n ++ slash)).run ⟨m, t₁, now, garbage₁⟩ = .ok true ⟨m, t₂, now, garbage₂⟩) :
    (findDentry opt st ino n false).run ⟨m, t, now, garbage⟩ = .ok (some m.heapNext)
      ⟨(m.issue.link a n (m.newInode now (m.heap a).inode.mode (m.heap a).inode.gid (m.heap a).inode.uid)).set m.heapNext
        (·.incTtl now opt.dcacheTimeout), t₂, now, garbage₂⟩ := by
  obtain ⟨halloc, hino⟩ := hm.indexed _ _ ha
  obtain ⟨inode, hinode⟩ : ∃ inode,
      inode = m.newInode now (m.heap a).inode.mode (m.heap a).inode.gid (m.heap a).inode.uid := ⟨_, rfl⟩
  have hmake : (do
      let inode ← createNewInode now (m.heap a).inode.mode (m.heap a).inode.gid (m.heap a).inode.uid
      LocalMemMeta.createDentry (m.heap a).inode.ino n inode : LocalM Addr) m =
        .ok m.heapNext (m.issue.link a n inode) := by
    rw [bind_ok run_createNewInode, hino, ← hinode]
    exact run_createDentry (m := m.issue) ha halloc
  have hvirtual : (addVirtualDir opt a n : MetaM σ Addr).run ⟨m, t₂, now, garbage₂⟩ = .ok m.heapNext
      ⟨(m.issue.link a n inode).set m.heapNext (·.incTtl now opt.dcacheTimeout), t₂, now, garbage₂⟩ := by
    rw [addVirtualDir, Prog.run_bind_ok run_readDentry, Prog.run_bind_ok (run_cache_ok hmake), incTtl,
      Prog.run_bind_ok (run_cache_ok run_store)]
    rfl
  rw [run_findDentry_remote ha hno hremote, if_neg (hexist ▸ Bool.false_ne_true),
    Prog.run_bind_ok (run_pathWithSlash hm halloc), Prog.run_bind_ok hlist, if_pos rfl, Prog.run_map_ok hvirtual, hinode]

theorem run_findDentry_nothing
    (hlist : (isRemoteDirExist st (m.dirPrefix a ++ n ++ slash)).run ⟨m, t₁, now, garbage₁⟩ = .ok false ⟨m, t₂, now, garbage₂⟩) :
    (findDentry opt st ino n false).run ⟨m, t, now, garbage⟩ = .ok none ⟨m, t₂, now, garbage₂⟩ := by
  rw [run_findDentry_remote ha hno hremote, if_neg (hexist ▸ Bool.false_ne_true),
    Prog.run_bind_ok (run_pathWithSlash hm (hm.indexed _ _ ha).1), Prog.run_bind_ok hlist, if_neg Bool.false_ne_true]
  rfl

end

variable (opt t now garbage) in
theorem run_findDentry_absent (hc : c.Serves view) (ho : c.InOrder view) (hm : Inv m) (ha : m.lookup ino = some a)
    (hdir : (m.heap a).isDir = true) (hno : (m.heap a).getChild n = none) : ∃ d s,
    (findDentry opt (s3Stor c) ino n false).run ⟨m, t, now, garbage⟩ = .ok d s ∧
      ∀ k, (∃ ch, d = some ch ∧ (s.cache.heap ch).isDir = k) ↔ Kind (view t) (m.dirPrefix a ++ n) k := by
  obtain ⟨halloc, hino⟩ := hm.indexed _ _ ha
  obtain ⟨obj, exist, isDir, t₁, hremote, hv₁, hexist, hobj⟩ :=
    run_getRemoteObj t now garbage n hc hm halloc
  cases exist with
  | true =>
    obtain ⟨hkind, hmode⟩ := hobj rfl
    have hnew := heap_link_new (m := m.issue) n (m.objInode now obj isDir) halloc
    rw [heapNext_issue] at hnew
    refine ⟨_, _, run_findDentry_found hm ha hno hremote rfl, fun k => ?_⟩
    have hisDir : (((m.issue.link a n (m.objInode now obj isDir)).set m.heapNext (·.incTtl now opt.dcacheTimeout)).heap
        m.heapNext).isDir = isDir := by
      rw [heap_set_self, hnew]
      exact objInode_isDir n hmode
    constructor
    · rintro ⟨ch, hch, hk⟩
      obtain rfl := Option.some.inj hch
      rw [← hk, hisDir]
      cases isDir with
      | false => exact .inl ⟨rfl, hkind.mp rfl⟩
      | true =>
        have hnot : ¬ (view t).Holds (m.dirPrefix a ++ n) := fun h => by cases hkind.mpr h
        exact .inr ⟨rfl, hnot, firstIsObject_marker ((hexist.mp rfl).resolve_left hnot)⟩
    · intro hk
      refine ⟨_, rfl, hisDir.trans ?_⟩
      rcases hk with ⟨rfl, hk⟩ | ⟨rfl, hk, -⟩
      · exact hkind.mpr hk
      · cases isDir with
        | false => exact absurd (hkind.mp rfl) hk
        | true => rfl
  | false =>
    have hnot : ¬ (view t).Holds (m.dirPrefix a ++ n) := fun h => by cases hexist.mpr (.inl h)
    obtain ⟨exist, t₂, hlist, hv₂, hfirst⟩ := run_isRemoteDirExist m t₁ now garbage ho
      (m.dirPrefix a ++ n ++ slash)
    rw [hv₁] at hfirst
    cases exist with
    | false =>
      refine ⟨_, _, run_findDentry_nothing hm ha hno hremote rfl hlist, fun k => ?_⟩
      have hno : ¬ (view t).FirstIsObject (m.dirPrefix a ++ n ++ slash) := fun h => by cases hfirst.mpr h
      constructor
      · rintro ⟨ch, hch, -⟩
        cases hch
      · rintro (⟨-, hk⟩ | ⟨-, -, hk⟩)
        · exact absurd hk hnot
        · exact absurd hk hno
    | true =>
      have hnew := heap_link_new (m := m.issue) n
        (m.newInode now (m.heap a).inode.mode (m.heap a).inode.gid (m.heap a).inode.uid) halloc
      rw [heapNext_issue] at hnew
      refine ⟨_, _, run_findDentry_virtual hm ha hno hremote rfl hlist, fun k => ?_⟩
      have hisDir : (((m.issue.link a n (m.newInode now (m.heap a).inode.mode (m.heap a).inode.gid (m.heap a).inode.uid)).set
          m.heapNext (·.incTtl now opt.dcacheTimeout)).heap m.heapNext).isDir = true := by
        rw [heap_set_self, hnew]
        exact hdir
      constructor
      · rintro ⟨ch, hch, hk⟩
        obtain rfl := Option.some.inj hch
        exact .inr ⟨hk.symm.trans hisDir, hnot, hfirst.mp rfl⟩
      · rintro (⟨-, hk⟩ | ⟨rfl, -⟩)
        · exact absurd hk hnot
        · exact ⟨_, rfl, hisDir⟩

/-! ### What a listing shows -/

/-- A child `n` of `a` that a listing made: it stands for a name in the bucket, and is a directory unless there is an
    object of the name. -/
def Shown (b : Bucket) (pre n : Str) (a : Addr) (m : LocalMemMeta) : Prop :=
  ∀ ch, (m.heap a).getChild n = some ch →
    b.Backs pre n ∧ (m.heap ch).synced = true ∧ ((m.heap ch).isDir = true ↔ ¬ b.Holds (pre ++ n))

/-- The entries for the name `n`, if it is not a child yet, come after the marker. -/
def NotPassed (es : List Str) (pre n marker : Str) (a : Addr) (m : LocalMemMeta) : Prop :=
  (m.heap a).getChild n = none → ∀ e ∈ es, e = pre ++ n ∨ e = pre ++ n ++ slash → e ∈ after (Log.markerOf marker) es

section
variable {marker : Str} {r : ListObjectsResult} {nodes : List FTreeNode}

/-- The page names only what the bucket holds under its prefix. -/
theorem PageOf.under (h : r.PageOf (pageRequest pre marker) es) (hes : b.Entries pre es) : Under pre r := by
  refine ⟨fun o ho => ?_, fun p hp => ?_⟩
  · have hmem : o.key ∈ r.contents.map S3Object.key := List.mem_map_of_mem ho
    rw [h.contents, List.mem_filter] at hmem
    rcases (hes.mem _).mp (mem_of_mem_page hmem.1) with ⟨k, hk, hs, -⟩ | ⟨k, hk, -⟩
    · exact ⟨k, hk, hs⟩
    · have hpre : Log.isPrefix pre o.key = true := hk ▸ isPrefix_slash
      simp [pageRequest, hpre] at hmem
  · rw [h.commonPrefixes, List.mem_filter] at hp
    rcases (hes.mem _).mp (mem_of_mem_page hp.1) with ⟨k, hk, hs, -⟩ | ⟨k, hk, hs, -⟩
    · have hpre : Log.isPrefix pre p = false := hk ▸ not_isPrefix hs
      simp [pageRequest, hpre] at hp
    · exact ⟨k, hk, hs⟩

variable (hpage : r.PageOf (pageRequest pre marker) es) (hes : b.Entries pre es) (hn : '/' ∉ n)
include hpage hes hn

omit hes in
theorem page_key : (∃ o ∈ r.contents, o.key = pre ++ n) ↔ pre ++ n ∈ page (Log.markerOf marker) 1000 es := by
  rw [← List.mem_map, hpage.contents, List.mem_filter]
  simp [pageRequest, not_isPrefix hn]

omit hes hn in
theorem page_dir : pre ++ n ++ slash ∈ r.commonPrefixes ↔ pre ++ n ++ slash ∈ page (Log.markerOf marker) 1000 es := by
  rw [hpage.commonPrefixes, List.mem_filter]
  simp only [pageRequest, isPrefix_slash, and_true]

/-- The step lemma: what a page does to the child `n`. An object of the name comes before the directory, so it is
    merged first. -/
theorem shown_page (hm : Inv m) (hbuilt : Built a nodes m m') {g : Str → Garbage}
    (hft : buildFtree pre (pageResp g r) = some nodes) (hnodes : NodesFor pre r.contents r.commonPrefixes nodes) (hne : n ≠ []) (hshown : Shown b pre n a m)
    (hahead : NotPassed es pre n marker a m) : Shown b pre n a m' ∧
      ((m'.heap a).getChild n = none → ∀ e ∈ es, e = pre ++ n ∨ e = pre ++ n ++ slash →
        e ∈ after (Log.markerOf marker) es ∧ e ∉ page (Log.markerOf marker) 1000 es) := by
  have hunder := PageOf.under hpage hes
  refine ⟨fun ch hch => ?_, fun hnone e he hcase => ⟨?_, fun hmem => ?_⟩⟩
  · rcases hbuilt.origin n ch hch with hold | ⟨hge, -⟩
    · obtain ⟨hback, hsync, hkind⟩ := hshown ch hold
      have hlt := (hm.child a n ch hbuilt.alloc hold).2.1
      refine ⟨hback, hbuilt.mark ch hlt hsync, ?_⟩
      rw [Dentry.isDir, (hbuilt.same ch hlt).1]
      exact hkind
    · obtain ⟨-, hlt, hname, -⟩ := hbuilt.inv.child a n ch (Nat.lt_of_lt_of_le hbuilt.alloc hbuilt.grow.next) hch
      obtain ⟨-, -, hsync, -, node, hnode, hnodeName, hisDir⟩ := hbuilt.fresh ch hge hlt
      have hnname : node.name = n := hnodeName.trans hname
      have hnone : (m.heap a).getChild n = none := by
        cases hold : (m.heap a).getChild n with
        | none => rfl
        | some old =>
          obtain rfl := Option.some.inj ((hbuilt.child n old hold).symm.trans hch)
          exact absurd (hm.child a n old hbuilt.alloc hold).2.1 (Nat.not_lt.mpr hge)
      rw [hisDir (hnodes.mode node hnode)]
      rcases hnodes.listed node hnode with ⟨hd, -, hprefix⟩ | ⟨hd, o, ho, hkey, -⟩
      · rw [hnname, page_dir hpage] at hprefix
        have hbelow := (hes.dir hn).mp (mem_of_mem_page hprefix)
        refine ⟨.inr hbelow, hsync, iff_of_true hd fun hk => ?_⟩
        have hmem := (hes.key hn).mpr hk
        have hbefore := mem_page_of_lt hes.sorted (hahead hnone _ hmem (.inl rfl)) hprefix (lt_append (by simp [slash]))
        obtain ⟨o, ho, hkey⟩ := (page_key hpage hn).mpr hbefore
        refine buildFtree_over (pageUnder_page hunder g) hft node hnode hd (objInfo (g o.key) o.key o.size o.lastModified)
          (List.mem_map_of_mem ho) ?_
        rw [hnname]
        exact hkey
      · rw [hnname] at hkey
        have hk := (hes.key hn).mp (mem_of_mem_page ((page_key hpage hn).mp ⟨o, ho, hkey⟩))
        exact ⟨.inl hk, hsync, iff_of_false (by simp [hd]) (not_not.mpr hk)⟩
  · refine hahead ?_ e he hcase
    cases hold : (m.heap a).getChild n with
    | none => rfl
    | some old =>
      rw [hbuilt.child n old hold] at hnone
      cases hnone
  · have hnode : ∃ node ∈ nodes, node.name = n := by
      rcases hcase with rfl | rfl
      · obtain ⟨o, ho, hkey⟩ := (page_key hpage hn).mpr hmem
        obtain ⟨node, hnode, hkey'⟩ := hnodes.files o ho
        exact ⟨node, hnode, (List.append_cancel_left (hkey.symm.trans hkey')).symm⟩
      · exact hnodes.dirs n hne ((page_dir hpage).mpr hmem)
    obtain ⟨node, hnode, rfl⟩ := hnode
    obtain ⟨ch, hch, -⟩ := hbuilt.listed node hnode
    rw [hch] at hnone
    cases hnone

end

variable (now garbage) in
/-- The run lemma: a refresh whose pages come in order shows each name that the bucket backs, as what it is. -/
theorem run_refreshLoop_inOrder (marker : Str) (hc : c.Serves view) (ho : c.InOrder view) (hn : '/' ∉ n) (hne : n ≠ []) {fuel : Nat}
    (hm : Inv m) (ha : m.lookup ino = some a) (hes : (view t).Entries pre es)
    (hfuel : (after (Log.markerOf marker) es).length < fuel) (hshown : Shown (view t) pre n a m)
    (hahead : NotPassed es pre n marker a m) : ∃ m' t',
      (refreshLoop (s3Stor c) ino pre fuel marker).run ⟨m, t, now, garbage⟩ = .ok () ⟨m', t', now, garbage⟩ ∧
        Inv m' ∧ Grow m m' ∧ Shown (view t) pre n a m' ∧ ((view t).Backs pre n → ∃ ch, (m'.heap a).getChild n = some ch) := by
  induction fuel generalizing m t marker with
  | zero => exact absurd hfuel (Nat.not_lt_zero _)
  | succ fuel ih =>
    obtain ⟨r, t₁, hr, hv, hpage⟩ := ho.list t (pageRequest pre marker) es rfl (Nat.succ_pos _) hes
    obtain ⟨nodes, m₁, hft, hnodes, hbuilt, hrun⟩ := run_page hm ha hr (PageOf.under hpage hes) now garbage fuel
    obtain ⟨hshown₁, hrest⟩ := shown_page hpage hes hn hm hbuilt hft hnodes hne hshown hahead
    rw [hrun]
    cases htr : r.isTruncated with
    | false =>
      refine ⟨m₁, t₁, rfl, hbuilt.inv, hbuilt.grow, hshown₁, fun hback => ?_⟩
      have hlast : truncated (Log.markerOf marker) 1000 es = false := hpage.isTruncated.symm.trans htr
      cases hch : (m₁.heap a).getChild n with
      | some ch => exact ⟨ch, rfl⟩
      | none =>
        obtain ⟨e, he, hcase⟩ : ∃ e ∈ es, e = pre ++ n ∨ e = pre ++ n ++ slash := by
          rcases hback with hk | hk
          · exact ⟨_, (hes.key hn).mpr hk, .inl rfl⟩
          · exact ⟨_, (hes.dir hn).mpr hk, .inr rfl⟩
        obtain ⟨hafter, hnot⟩ := hrest hch e he hcase
        exact absurd ((mem_page_last hlast).mpr hafter) hnot
    | true =>
      have hz := hpage.nextMarker htr
      have hzmem : r.nextMarker ∈ page (Log.markerOf marker) 1000 es := List.mem_of_getLast? hz
      have hznil : r.nextMarker ≠ [] := by
        rcases (hes.mem _).mp (mem_of_mem_page hzmem) with ⟨k, hk, -, hh⟩ | ⟨k, hk, -⟩
        · intro hnil
          rw [hnil, Bucket.Holds, hc.noEmptyKey] at hh
          cases hh
        · intro hnil
          rw [hnil] at hk
          simp [slash] at hk
      have hmarker : Log.markerOf r.nextMarker = some r.nextMarker := if_neg hznil
      rw [← hv] at hes hshown₁
      obtain ⟨m', t', hrun', hinv, hgrow, hend⟩ := ih r.nextMarker hbuilt.inv (hbuilt.grow.index _ _ ha) hes
        (by
          rw [hmarker]
          exact Nat.lt_of_lt_of_le (length_after_lt (List.mem_of_mem_take hzmem)) (Nat.le_of_lt_succ hfuel)) hshown₁
        (by
          intro hch e he hcase
          obtain ⟨hafter, hnot⟩ := hrest hch e he hcase
          rw [hmarker]
          exact ((mem_after_page hes.sorted hz).mp hafter).resolve_left hnot)
      rw [hv] at hend
      exact ⟨m', t', hrun', hinv, hbuilt.grow.trans hgrow, hend⟩

variable (t now garbage n) in
/-- The entries of a listing after the two for the directory itself are its children. -/
theorem mem_listed (hm : Inv m) (ha : a < m.heapNext) {P : Addr → Prop} : ∃ ds,
    (listChildren a : MetaM σ _).run ⟨m, t, now, garbage⟩ = .ok ds ⟨m, t, now, garbage⟩ ∧
      ((∃ e ∈ ds.drop 2, e.name = n ∧ P e.inode) ↔ ∃ ch, (m.heap a).getChild n = some ch ∧ P ch) := by
  refine ⟨⟨['.'], a⟩ :: ⟨['.', '.'], a⟩ :: (m.heap a).children.entries.map fun e => ⟨(m.heap e.2).name, e.2⟩, rfl, ?_⟩
  have hentry : ∀ k ch, (m.heap a).getChild k = some ch ↔ (⟨k, ch⟩ : Sigma fun _ : Str => Addr) ∈ (m.heap a).children.entries :=
    fun k ch => AList.mem_lookup_iff
  simp only [List.drop_succ_cons, List.drop_zero, List.mem_map]
  constructor
  · rintro ⟨d, ⟨e, he, rfl⟩, hname, hP⟩
    have hch := (hentry e.1 e.2).mpr he
    have hkey : (m.heap e.2).name = e.1 := (hm.child a e.1 e.2 ha hch).2.2.1
    refine ⟨e.2, ?_, hP⟩
    rw [← hname, hkey]
    exact hch
  · rintro ⟨ch, hch, hP⟩
    exact ⟨_, ⟨_, (hentry n ch).mp hch, rfl⟩, (hm.child a n ch ha hch).2.2.1, hP⟩

theorem run_needsRefresh : (needsRefresh a : MetaM σ _).run ⟨m, t, now, garbage⟩ =
    .ok (!(m.heap a).complete || (m.heap a).isExpired now) ⟨m, t, now, garbage⟩ := rfl

variable (c t garbage) in
/-- A listing that is served from the cache shows the children as they are. -/
theorem run_load_cached (fuel : Nat) (hm : Inv m) (ha : m.lookup ino = some a) (hno : (m.heap a).getChild n = none)
    (hfresh : (!(m.heap a).complete || (m.heap a).isExpired now) = false) : ∃ ds s,
      (loadSubDentries (s3Stor c) fuel ino).run ⟨m, t, now, garbage⟩ = .ok ds s ∧
        ∀ k, ¬ ∃ e ∈ ds.drop 2, e.name = n ∧ (s.cache.heap e.inode).isDir = k := by
  have hlist := fun k => mem_listed t now garbage n hm (hm.indexed _ _ ha).1
    (P := fun ch => (m.heap ch).isDir = k)
  obtain ⟨ds, hrun, -⟩ := hlist true
  refine ⟨ds, ⟨m, t, now, garbage⟩, ?_, fun k h => ?_⟩
  · rw [loadSubDentries, Prog.run_bind_ok (run_getDentry_some ha)]
    simp only
    rw [Prog.run_bind_ok run_needsRefresh, hfresh]
    exact hrun
  · obtain ⟨ds', hrun', hmem⟩ := hlist k
    obtain ⟨rfl, -⟩ := Result.ok.inj (hrun.symm.trans hrun')
    obtain ⟨ch, hch, -⟩ := hmem.mp h
    rw [hno] at hch
    cases hch

variable (garbage) in
/-- A listing that is made anew shows what the bucket backs. -/
theorem run_load_fresh (hc : c.Serves view) (ho : c.InOrder view) (hm : Inv m) (ha : m.lookup ino = some a)
    (hno : (m.heap a).getChild n = none) (hn : '/' ∉ n) (hne : n ≠ []) (hes : (view t).Entries (m.dirPrefix a) es)
    {fuel : Nat} (hfuel : es.length < fuel) (hstale : (!(m.heap a).complete || (m.heap a).isExpired now) = true) : ∃ ds s,
      (loadSubDentries (s3Stor c) fuel ino).run ⟨m, t, now, garbage⟩ = .ok ds s ∧
        ∀ k, (∃ e ∈ ds.drop 2, e.name = n ∧ (s.cache.heap e.inode).isDir = k) ↔
          k = false ∧ (view t).Holds (m.dirPrefix a ++ n) ∨
            k = true ∧ ¬ (view t).Holds (m.dirPrefix a ++ n) ∧ (view t).Backs (m.dirPrefix a) n := by
  obtain ⟨halloc, hino⟩ := hm.indexed _ _ ha
  have hstart : Log.markerOf [] = none := rfl
  obtain ⟨m₁, t₁, hloop, hm₁, hgrow, hshown, hback⟩ := run_refreshLoop_inOrder now garbage [] hc ho
    hn hne hm ha hes (by rwa [hstart, after_none]) (fun ch hch => by rw [hno] at hch; cases hch)
    (fun _ e he _ => by rwa [hstart, after_none])
  obtain ⟨m₂, hsweep, hswept⟩ := run_clearUnsyncDentry now hm₁ (Nat.lt_of_lt_of_le halloc hgrow.next)
  have hrefresh : (refreshSubDentries (s3Stor c) fuel a).run ⟨m, t, now, garbage⟩ = .ok () ⟨m₂, t₁, now, garbage⟩ := by
    rw [refreshSubDentries, Prog.run_bind_ok (run_pathWithSlash hm halloc), Prog.run_bind_ok run_readDentry, hino,
      Prog.run_bind_ok hloop]
    exact run_cache_ok hsweep
  have halloc₂ : a < m₂.heapNext := Nat.lt_of_lt_of_le halloc (hgrow.trans hswept.grow).next
  have hlist := fun k => mem_listed t₁ now garbage n hswept.inv halloc₂
    (P := fun ch => (m₂.heap ch).isDir = k)
  obtain ⟨ds, hrun, -⟩ := hlist true
  refine ⟨ds, ⟨m₂, t₁, now, garbage⟩, ?_, fun k => ?_⟩
  · rw [loadSubDentries, Prog.run_bind_ok (run_getDentry_some ha)]
    simp only
    rw [Prog.run_bind_ok run_needsRefresh, hstale, if_pos rfl, Prog.run_bind_ok hrefresh]
    exact hrun
  · obtain ⟨ds', hrun', hmem⟩ := hlist k
    obtain ⟨rfl, -⟩ := Result.ok.inj (hrun.symm.trans hrun')
    -- The sweep keeps the children that were listed, as they are.
    have hkept : ∀ ch, (m₂.heap a).getChild n = some ch ↔ (m₁.heap a).getChild n = some ch := fun ch =>
      (hswept.child a .start n ch).trans ⟨And.left, fun h => ⟨h, (hshown ch h).2.1⟩⟩
    have hisDir : ∀ ch, (m₂.heap ch).isDir = (m₁.heap ch).isDir := fun ch => by
      rw [Dentry.isDir, hswept.inode ch, Dentry.isDir]
    rw [hmem]
    constructor
    · rintro ⟨ch, hch, hk⟩
      obtain ⟨hbacked, -, hkind⟩ := hshown ch ((hkept ch).mp hch)
      rw [hisDir] at hk
      cases k with
      | false => exact .inl ⟨rfl, not_not.mp fun h => by rw [hkind.mpr h] at hk; cases hk⟩
      | true => exact .inr ⟨rfl, hkind.mp hk, hbacked⟩
    · intro h
      have hbacked : (view t).Backs (m.dirPrefix a) n := by
        rcases h with ⟨-, hk⟩ | ⟨-, -, hb⟩
        · exact .inl hk
        · exact hb
      obtain ⟨ch, hch⟩ := hback hbacked
      refine ⟨ch, (hkept ch).mpr hch, ?_⟩
      rw [hisDir]
      have hkind := (hshown ch hch).2.2
      rcases h with ⟨rfl, hk⟩ | ⟨rfl, hk, -⟩
      · exact Bool.eq_false_iff.mpr fun hd => hkind.mp hd hk
      · exact hkind.mpr hk

/-! ### They agree -/

/-- A lookup that found `d` and a listing that returned `ds` agree on the name `n`: on whether there is an entry, and
    on whether it is a directory. The first two entries of a listing are for the directory itself. -/
def Agree (n : Str) (d : Option Addr) (s : World σ) (ds : List Dirent) (s' : World σ) : Prop :=
  ∀ k, (∃ ch, d = some ch ∧ (s.cache.heap ch).isDir = k) ↔ ∃ e ∈ ds.drop 2, e.name = n ∧ (s'.cache.heap e.inode).isDir = k

/-- On a directory without cached children, a lookup and a listing agree on a name exactly when what the bucket holds
    for it is seen by the lookup or, when the directory counts as complete, nothing is seen. -/
theorem lookup_agrees_iff (hm : Reachable opt m) (hc : c.Serves view) (ho : c.InOrder view) (ha : m.lookup ino = some a)
    (hdir : (m.heap a).isDir = true) (hempty : ∀ k, (m.heap a).getChild k = none) (hne : n ≠ []) (hn : '/' ∉ n) (t : σ)
    (now : Timespec) (garbage : Garbage) : ∃ pages, ∀ fuel, pages ≤ fuel → ∃ d s ds s',
      (findDentry opt (s3Stor c) ino n false).run ⟨m, t, now, garbage⟩ = .ok d s ∧
      (loadSubDentries (s3Stor c) fuel ino).run ⟨m, t, now, garbage⟩ = .ok ds s' ∧
      (Agree n d s ds s' ↔ if (m.heap a).complete = true ∧ (m.heap a).isExpired now = false
        then ¬ (view t).Seen (m.dirPrefix a ++ n)
        else (view t).Backs (m.dirPrefix a) n → (view t).Seen (m.dirPrefix a ++ n)) := by
  obtain ⟨es, hes⟩ := ho.entries t (m.dirPrefix a)
  refine ⟨es.length + 1, fun fuel hfuel => ?_⟩
  obtain ⟨d, s, hfind, hfound⟩ := run_findDentry_absent opt t now garbage hc ho hm.inv
    ha hdir (hempty n)
  by_cases hserved : (m.heap a).complete = true ∧ (m.heap a).isExpired now = false
  · obtain ⟨ds, s', hload, hlisted⟩ := run_load_cached c t garbage fuel hm.inv ha
      (hempty n) (by rw [hserved.1, hserved.2]; rfl)
    refine ⟨d, s, ds, s', hfind, hload, ?_⟩
    rw [if_pos hserved]
    constructor
    · intro h hseen
      by_cases hk : (view t).Holds (m.dirPrefix a ++ n)
      · exact hlisted false ((h false).mp ((hfound false).mpr (.inl ⟨rfl, hk⟩)))
      · exact hlisted true ((h true).mp ((hfound true).mpr (.inr ⟨rfl, hk, hseen.resolve_left hk⟩)))
    · intro h k
      refine iff_of_false (fun hf => h ?_) (hlisted k)
      rcases (hfound k).mp hf with ⟨-, hk⟩ | ⟨-, -, hk⟩
      · exact .inl hk
      · exact .inr hk
  · have hstale : (!(m.heap a).complete || (m.heap a).isExpired now) = true := by
      cases hcomplete : (m.heap a).complete with
      | false => rfl
      | true =>
        cases hexp : (m.heap a).isExpired now with
        | true => rfl
        | false => exact absurd ⟨hcomplete, hexp⟩ hserved
    obtain ⟨ds, s', hload, hlisted⟩ := run_load_fresh garbage hc ho hm.inv ha (hempty n) hn hne hes hfuel hstale
    refine ⟨d, s, ds, s', hfind, hload, ?_⟩
    rw [if_neg hserved]
    have hbelow : (view t).FirstIsObject (m.dirPrefix a ++ n ++ slash) → (view t).Backs (m.dirPrefix a) n := by
      rintro ⟨k, -, hk, -⟩
      exact .inr ⟨k, hk⟩
    constructor
    · intro h hback
      by_cases hk : (view t).Holds (m.dirPrefix a ++ n)
      · exact .inl hk
      · rcases (hfound true).mp ((h true).mpr ((hlisted true).mpr (.inr ⟨rfl, hk, hback⟩))) with ⟨hf, -⟩ | ⟨-, -, hk⟩
        · cases hf
        · exact .inr hk
    · intro h k
      rw [hfound k, hlisted k, Kind]
      refine or_congr_right (and_congr_right fun _ => and_congr_right fun hk => ⟨hbelow, fun hb => (h hb).resolve_left hk⟩)

theorem newCache_children (k : Str) : (newCache.heap 0).getChild k = none := rfl

/-- They agree on a file in the root of a new mount. -/
theorem lookup_agrees_oneFile : ∃ pages, ∀ fuel, pages ≤ fuel → ∃ d s ds s',
    (findDentry ⟨0, 0, 60⟩ (s3Stor Log.client) ROOT_INODE_ID ['x'] false).run (newWorld (Log.holding ['x'])) = .ok d s ∧
    (loadSubDentries (s3Stor Log.client) fuel ROOT_INODE_ID).run (newWorld (Log.holding ['x'])) = .ok ds s' ∧
    Agree ['x'] d s ds s' := by
  obtain ⟨pages, h⟩ := lookup_agrees_iff (show Reachable ⟨0, 0, 60⟩ newCache from .new ⟨0, 0⟩) Log.client_serves
    Log.client_inOrder (show newCache.lookup ROOT_INODE_ID = some 0 from rfl) (by decide) newCache_children
    (show (['x'] : Str) ≠ [] by simp) (by decide) (Log.holding ['x']) ⟨0, 0⟩ noGarbage
  refine ⟨pages, fun fuel hfuel => ?_⟩
  obtain ⟨d, s, ds, s', hfind, hload, hagree⟩ := h fuel hfuel
  refine ⟨d, s, ds, s', hfind, hload, hagree.mpr ?_⟩
  rw [if_neg (by decide)]
  exact fun _ => .inl (by rw [Bucket.Holds]; decide)

/-- A mount that has looked up `n`. -/
def lookedUpCache (n : Str) (log : Log) : LocalMemMeta :=
  (endState (((Request.find ROOT_INODE_ID n).prog ⟨0, 0, 60⟩ (s3Stor Log.client) 1).run (newWorld log))).cache

theorem reachable_lookedUpCache (n : Str) (log : Log) : Reachable ⟨0, 0, 60⟩ (lookedUpCache n log) :=
  (Reachable.new ⟨0, 0⟩).request (s3Stor Log.client) 1 (.find ROOT_INODE_ID n) log ⟨0, 0⟩ noGarbage

/-- The lookup returned nothing. -/
def foundNothing : Result Err (World σ) (Option Addr) → Bool
  | .ok none _ => true
  | _ => false

/-- The listing has an entry `n`. -/
def lists (n : Str) : Result Err (World σ) (List Dirent) → Bool
  | .ok ds _ => (ds.drop 2).any fun e => e.name == n
  | .error _ _ => false

/-- A directory that holds only directories is listed and cannot be looked up. -/
theorem lookup_misses_deep : ∃ d s ds s',
    (findDentry ⟨0, 0, 60⟩ (s3Stor Log.client) ROOT_INODE_ID ['d'] false).run
      (newWorld (Log.holding ['d', '/', 'y', '/', 'z'])) = .ok d s ∧
    (loadSubDentries (s3Stor Log.client) 1 ROOT_INODE_ID).run
      (newWorld (Log.holding ['d', '/', 'y', '/', 'z'])) = .ok ds s' ∧ ¬ Agree ['d'] d s ds s' := by
  have hfind : foundNothing ((findDentry ⟨0, 0, 60⟩ (s3Stor Log.client) ROOT_INODE_ID ['d'] false).run
      (newWorld (Log.holding ['d', '/', 'y', '/', 'z']))) = true := by decide +kernel
  have hload : lists ['d'] ((loadSubDentries (s3Stor Log.client) 1 ROOT_INODE_ID).run
      (newWorld (Log.holding ['d', '/', 'y', '/', 'z']))) = true := by
    decide +kernel
  generalize hf : (findDentry ⟨0, 0, 60⟩ (s3Stor Log.client) ROOT_INODE_ID ['d'] false).run
    (newWorld (Log.holding ['d', '/', 'y', '/', 'z'])) = r at hfind
  generalize hl : (loadSubDentries (s3Stor Log.client) 1 ROOT_INODE_ID).run
    (newWorld (Log.holding ['d', '/', 'y', '/', 'z'])) = r' at hload
  cases r with
  | error e s => cases hfind
  | ok d s =>
    cases d with
    | some a => cases hfind
    | none =>
      cases r' with
      | error e s' => cases hload
      | ok ds s' =>
        refine ⟨none, s, ds, s', rfl, rfl, fun h => ?_⟩
        obtain ⟨e, he, hname⟩ := List.any_eq_true.mp hload
        obtain ⟨ch, hch, -⟩ := (h _).mpr ⟨e, he, beq_iff_eq.mp hname, rfl⟩
        cases hch

end MetaImpl

end Catfs
