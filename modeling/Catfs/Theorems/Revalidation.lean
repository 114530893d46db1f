import Catfs.Theorems.SecondMount

/-! # The revalidation of an expired entry

A lookup of an entry that is cached and expired sends one `HEAD`, to the key of the entry as it is cached. It keeps the
entry whatever the answer, takes the size from the response even where nothing filled it in, and stores a mode that no
response has. -/

namespace Catfs

open Lib MetaM LocalMemMeta
open EStateM (Result)

/-- The kinds of entry that the bucket has at a path: an object at the path is a file, a key below it makes a directory. -/
def Bucket.Has (b : Bucket) (path : Str) : Bool → Prop
  | false => b.Holds path
  | true => ∃ rest, b.Holds (path ++ slash ++ rest)

namespace MetaImpl
variable {σ : Type} {c : S3Client σ} {st : Stor σ} {view : σ → Bucket} {opt : MetaOpt} {m : LocalMemMeta} {t t' : σ}
  {now : Timespec} {garbage : Garbage} {pino : InodeID} {p a : Addr} {n path : Str} {resp : HeadFileResp} {b : Bucket}

/-! ### One revalidation -/

/-- What a revalidation sets. -/
def headUpdate (obj : ObjInfo) (isDir : Bool) : InodeUpdateAttr where
  size := some obj.size
  mode := some (headMode obj isDir)
  uid := obj.uid
  gid := obj.gid

/-- What the response to its `HEAD` makes of a dentry. -/
def revalidated (opt : MetaOpt) (now : Timespec) (resp : HeadFileResp) (d : Dentry) : Dentry :=
  if !resp.exist && d.isDir then d.incTtl now opt.dcacheTimeout
  else (InodeUpdateAttr.apply (headUpdate resp.obj d.isDir) d).incTtl now opt.dcacheTimeout

theorem run_update_entry (hm : Inv m) (ha : a < m.heapNext) (u : InodeUpdateAttr) :
    (updateInode (m.heap a).inode.ino u : MetaM σ _).run ⟨m, t, now, garbage⟩ =
      .ok () ⟨m.set a (InodeUpdateAttr.apply u), t, now, garbage⟩ :=
  run_cache_ok (LocalMemMeta.run_updateInode (hm.index a ha))

theorem run_revalidate (hm : Inv m) (ha : a < m.heapNext)
    (hhead : (headFile st (m.ownKey a) (.uninit garbage)).run ⟨m, t, now, garbage⟩ = .ok resp ⟨m, t', now, garbage⟩) :
    (revalidate opt st a).run ⟨m, t, now, garbage⟩ = .ok (some a) ⟨m.set a (revalidated opt now resp), t', now, garbage⟩ := by
  have hkey : (headKey a (m.heap a).isDir : MetaM σ _).run ⟨m, t, now, garbage⟩ = .ok (m.ownKey a) ⟨m, t, now, garbage⟩ := by
    have hinv : CacheInv (⟨m, t, now, garbage⟩ : World σ) := hm
    exact run_headKey hinv ha
  have hset : ∀ f g : Dentry → Dentry, (m.set a f).set a g = m.set a (g ∘ f) := by
    intro f g
    simp [LocalMemMeta.set]
  rw [revalidate, Prog.run_bind_ok run_readDentry, Prog.run_bind_ok hkey, Prog.run_bind_ok run_headResp, Prog.run_bind_ok hhead]
  cases hgone : !resp.exist && (m.heap a).isDir with
  | true =>
    have hfun : m.set a (revalidated opt now resp) = m.set a (·.incTtl now opt.dcacheTimeout) := by
      simp only [LocalMemMeta.set, revalidated, hgone, if_true]
    rw [hfun]
    rfl
  | false =>
    have hfun : m.set a (revalidated opt now resp) =
        m.set a ((·.incTtl now opt.dcacheTimeout) ∘ InodeUpdateAttr.apply (headUpdate resp.obj (m.heap a).isDir)) := by
      simp only [LocalMemMeta.set, revalidated, hgone]
      rfl
    rw [if_neg Bool.false_ne_true, Prog.run_bind_ok (run_update_entry hm ha _), hfun, ← hset]
    rfl

/-- A lookup of an expired entry is its revalidation. -/
theorem run_findDentry_expired (hm : Inv m) (hp : m.lookup pino = some p) (ha : (m.heap p).getChild n = some a)
    (hexp : (m.heap a).isExpired now = true)
    (hhead : (headFile st (m.ownKey a) (.uninit garbage)).run ⟨m, t, now, garbage⟩ = .ok resp ⟨m, t', now, garbage⟩) :
    (findDentry opt st pino n false).run ⟨m, t, now, garbage⟩ =
      .ok (some a) ⟨m.set a (revalidated opt now resp), t', now, garbage⟩ := by
  have halloc := (hm.child p n a (hm.indexed _ _ hp).1 ha).2.1
  have hfind : (findDentry opt st pino n false).run ⟨m, t, now, garbage⟩ =
      (if (m.heap a).isExpired now then revalidate opt st a else pure (some a) : MetaM σ _).run ⟨m, t, now, garbage⟩ := by
    rw [findDentry, Prog.run_bind_ok (run_cache_ok (LocalMemMeta.run_findDentry hp)), ha]
    rfl
  rw [hfind, hexp, if_pos rfl]
  exact run_revalidate hm halloc hhead

/-- It makes no directory of a file and no file of a directory when the response has no mode. -/
theorem revalidated_isDir (hmode : resp.obj.mode = none) (d : Dentry) : (revalidated opt now resp d).isDir = d.isDir := by
  unfold revalidated
  split
  · rfl
  · show (headMode resp.obj d.isDir &&& S_IFDIR != 0) = d.isDir
    rw [headMode, hmode]
    cases d.isDir <;> decide

theorem run_headFile_present {r : HeadObjectResult} {key : Str} (h : c.headObject key t = .ok r t') (resp : HeadFileResp)
    (garbage : Garbage) : (headFile (s3Stor c) key resp).run ⟨m, t, now, garbage⟩ =
      .ok { exist := true, obj := objInfo (c.garbage t key) [] r.contentLength r.lastModified } ⟨m, t', now, garbage⟩ := by
  have hcall : (s3Stor c).headFile { objKey := key } resp t =
      .ok { exist := true, obj := objInfo (c.garbage t key) [] r.contentLength r.lastModified } t' := by simp only [s3Stor, h]
  exact run_call_ok hcall

/-- No such object: the response has what the memory held. -/
theorem run_headFile_missing {key msg : Str} (h : c.headObject key t = .error (.notFound msg) t') (garbage : Garbage) :
    (headFile (s3Stor c) key (.uninit garbage)).run ⟨m, t, now, garbage⟩ =
      .ok { HeadFileResp.uninit garbage with exist := false } ⟨m, t', now, garbage⟩ := by
  have hcall : (s3Stor c).headFile { objKey := key } (.uninit garbage) t =
      .ok { HeadFileResp.uninit garbage with exist := false } t' := by simp only [s3Stor, h]
  exact run_call_ok hcall

/-! ### What it stores -/

/-- In the state `t` the store answers the `HEAD` for `key` with an object, and every value of `u` is in that answer. -/
def Supplies (st : Stor σ) (t : σ) (key : Str) (u : InodeUpdateAttr) : Prop :=
  ∃ obj t', (∀ resp, st.headFile { objKey := key } resp t = .ok { exist := true, obj } t') ∧
    (∀ size, u.size = some size → size = obj.size) ∧ (∀ mode, u.mode = some mode → obj.mode = some mode) ∧
    (∀ uid, u.uid = some uid → obj.uid = some uid) ∧ ∀ gid, u.gid = some gid → obj.gid = some gid

/-- No answer of the S3 store has a mode. -/
theorem mode_of_supplies {key : Str} {u : InodeUpdateAttr} (h : Supplies (s3Stor c) t key u) : u.mode = none := by
  obtain ⟨obj, t', hcall, -, hmode, -⟩ := h
  have hnone : obj.mode = none := by
    have hcall := hcall (.uninit noGarbage)
    simp only [s3Stor] at hcall
    split at hcall
    · cases hcall
      rfl
    · cases hcall
    · cases hcall
  cases hu : u.mode with
  | none => rfl
  | some mode =>
    rw [hmode mode hu] at hnone
    cases hnone

theorem trace_revalidate (hm : Inv m) (ha : a < m.heapNext)
    (hhead : (headFile st (m.ownKey a) (.uninit garbage)).run ⟨m, t, now, garbage⟩ = .ok resp ⟨m, t', now, garbage⟩) :
    (revalidate opt st a).trace ⟨m, t, now, garbage⟩ = [.read a, .read a, .read 0, .head (m.ownKey a)] ++
      if !resp.exist && (m.heap a).isDir then [.touch a]
      else [.update (m.heap a).inode.ino (headUpdate resp.obj (m.heap a).isDir), .touch a] := by
  have hinv : CacheInv (⟨m, t, now, garbage⟩ : World σ) := hm
  have hkey : (headKey a (m.heap a).isDir : MetaM σ _).run ⟨m, t, now, garbage⟩ = .ok (m.ownKey a) ⟨m, t, now, garbage⟩ :=
    run_headKey hinv ha
  have hread : (readDentry a : MetaM σ _).trace ⟨m, t, now, garbage⟩ = [.read a] := Prog.trace_lift ..
  have hkeyed : (headKey a (m.heap a).isDir : MetaM σ _).trace ⟨m, t, now, garbage⟩ = [.read a] := by
    unfold headKey
    split <;> exact Prog.trace_lift ..
  have hzero : (headResp : MetaM σ _).trace ⟨m, t, now, garbage⟩ = [.read 0] := Prog.trace_lift ..
  have hasked : (headFile st (m.ownKey a) (.uninit garbage)).trace ⟨m, t, now, garbage⟩ = [.head (m.ownKey a)] := Prog.trace_lift ..
  rw [revalidate, Prog.trace_bind_ok run_readDentry, Prog.trace_bind_ok hkey, Prog.trace_bind_ok run_headResp,
    Prog.trace_bind_ok hhead, hread, hkeyed, hzero, hasked]
  cases hgone : !resp.exist && (m.heap a).isDir with
  | true => rfl
  | false =>
    have hset : ∀ u, (updateInode (m.heap a).inode.ino u : MetaM σ _).trace ⟨m, t', now, garbage⟩ =
        [.update (m.heap a).inode.ino u] := fun u => Prog.trace_lift ..
    rw [if_neg Bool.false_ne_true, Prog.trace_bind_ok (run_update_entry hm ha _), hset]
    rfl

/-- The steps of a lookup of an expired entry. -/
theorem trace_findDentry_expired (hm : Inv m) (hp : m.lookup pino = some p) (ha : (m.heap p).getChild n = some a)
    (hexp : (m.heap a).isExpired now = true)
    (hhead : (headFile st (m.ownKey a) (.uninit garbage)).run ⟨m, t, now, garbage⟩ = .ok resp ⟨m, t', now, garbage⟩) :
    (findDentry opt st pino n false).trace ⟨m, t, now, garbage⟩ =
      [.find pino n, .check a, .read a, .read a, .read 0, .head (m.ownKey a)] ++
      if !resp.exist && (m.heap a).isDir then [.touch a]
      else [.update (m.heap a).inode.ino (headUpdate resp.obj (m.heap a).isDir), .touch a] := by
  have halloc := (hm.child p n a (hm.indexed _ _ hp).1 ha).2.1
  have hfind : (cache (.find pino n) fun _ => LocalMemMeta.findDentry pino n : MetaM σ _).trace ⟨m, t, now, garbage⟩ =
      [.find pino n] := Prog.trace_lift ..
  have hcheck : (isExpired a : MetaM σ _).trace ⟨m, t, now, garbage⟩ = [.check a] := Prog.trace_lift ..
  have hexpired : (isExpired a : MetaM σ _).run ⟨m, t, now, garbage⟩ = .ok true ⟨m, t, now, garbage⟩ := hexp ▸ rfl
  rw [findDentry, Prog.trace_bind_ok (run_cache_ok (LocalMemMeta.run_findDentry hp)), hfind, ha]
  show _ ++ (isExpired a >>= fun expired => if expired then revalidate opt st a else pure (some a) : MetaM σ _).trace _ = _
  rw [Prog.trace_bind_ok hexpired, hcheck, if_pos rfl, trace_revalidate hm halloc hhead]
  rfl

/-! ### When it is right -/

/-- What a lookup of the expired entry `n` of `p` must return over the bucket `b`, and leave of the entry. -/
structure Agrees (b : Bucket) (path n : Str) (p : Addr) (r : Result Err (World σ) (Option Addr)) : Prop where
  gone : (∀ k, ¬ b.Has path k) → ∃ s, r = .ok none s ∧ (s.cache.heap p).getChild n = none
  present : (∃ k, b.Has path k) → ∃ a s, r = .ok (some a) s ∧ (s.cache.heap p).getChild n = some a ∧
    b.Has path (s.cache.heap a).isDir ∧
    ((s.cache.heap a).isDir = false → ∀ body, b path = some body → (s.cache.heap a).inode.size = body.length)

/-- What the lookup `q` must do when it begins in the state `s`. -/
structure Truthful (b : Bucket) (path n : Str) (p : Addr) (st : Stor σ) (q : MetaM σ (Option Addr)) (s : World σ) : Prop
    extends Agrees b path n p (q.run s) where
  /-- Each value that a step stores is one that the answer to a `HEAD` of the lookup supplied. -/
  supplied : ∀ ino u, .update ino u ∈ q.trace s → ∃ key, .head key ∈ q.trace s ∧ Supplies st s.stor key u

theorem child_of_set (hm : Inv m) (hp : p < m.heapNext) (ha : (m.heap p).getChild n = some a) (f : Dentry → Dentry) :
    ((m.set a f).heap p).getChild n = some a := by
  have hne : p ≠ a := Nat.ne_of_lt (hm.child p n a hp ha).1
  rw [heap_set_ne hne]
  exact ha

/-- The entry stays, with its kind, so the bucket must have that. -/
theorem has_of_agrees (hmode : resp.obj.mode = none)
    (h : Agrees b path n p (.ok (some a) ⟨m.set a (revalidated opt now resp), t', now, garbage⟩ : Result Err (World σ) _)) :
    b.Has path (m.heap a).isDir := by
  by_cases hsome : ∃ k, b.Has path k
  · obtain ⟨a', s, hok, -, hkind, -⟩ := h.present hsome
    cases hok
    rwa [heap_set_self, revalidated_isDir hmode] at hkind
  · obtain ⟨s, hok, -⟩ := h.gone fun k hk => hsome ⟨k, hk⟩
    cases hok

section
variable (hc : c.Serves view) (hs : Reachable opt m) (hp : m.lookup pino = some p) (ha : (m.heap p).getChild n = some a)
  (hexp : (m.heap a).isExpired now = true)
include hs hp ha

theorem ownKey_entry : m.ownKey a = entryKey (m.dirPrefix p ++ n) (m.heap a).isDir := by
  have hinv : CacheInv (⟨m, (), ⟨0, 0⟩, noGarbage⟩ : World Unit) := hs.inv
  exact ownKey_child hinv ha (hs.inv.indexed _ _ hp).1

include hc hexp

/-- What a lookup of an expired entry returns and leaves is right exactly when the bucket has an entry of the kind that is
    cached. -/
theorem revalidation_agrees_iff :
    Agrees (view t) (m.dirPrefix p ++ n) n p ((findDentry opt (s3Stor c) pino n false).run ⟨m, t, now, garbage⟩) ↔
      (view t).Has (m.dirPrefix p ++ n) (m.heap a).isDir := by
  have hm := hs.inv
  have hpn := (hm.indexed _ _ hp).1
  have hkey := ownKey_entry hs hp ha
  have hkind : ∀ resp : HeadFileResp, resp.obj.mode = none →
      ((m.set a (revalidated opt now resp)).heap a).isDir = (m.heap a).isDir := by
    intro resp hmode
    rw [heap_set_self, revalidated_isDir hmode]
  cases hkeyed : view t (m.ownKey a) with
  | some body =>
    obtain ⟨r, t', hr, hlength, hview⟩ := hc.head t _ body hkeyed
    have hhas : (view t).Has (m.dirPrefix p ++ n) (m.heap a).isDir := by
      rw [hkey] at hkeyed
      cases hd : (m.heap a).isDir with
      | false =>
        rw [hd] at hkeyed
        exact Option.isSome_iff_exists.mpr ⟨body, hkeyed⟩
      | true =>
        rw [hd] at hkeyed
        exact ⟨[], by rw [List.append_nil]; exact Option.isSome_iff_exists.mpr ⟨body, hkeyed⟩⟩
    rw [run_findDentry_expired hm hp ha hexp (run_headFile_present hr _ garbage)]
    refine iff_of_true ⟨fun hgone => absurd hhas (hgone _), fun _ => ?_⟩ hhas
    refine ⟨a, _, rfl, child_of_set hm hpn ha _, ?_, fun hfile body' hbody' => ?_⟩
    · rw [hkind _ rfl]
      exact hhas
    · rw [hkind _ rfl] at hfile
      rw [hkey, hfile] at hkeyed
      obtain rfl := Option.some.inj (hkeyed.symm.trans hbody')
      rw [heap_set_self]
      exact hlength
  | none =>
    obtain ⟨msg, t', hr, hview⟩ := hc.headNone t _ hkeyed
    rw [run_findDentry_expired hm hp ha hexp (run_headFile_missing hr garbage)]
    refine ⟨has_of_agrees rfl, fun hhas => ?_⟩
    have hdir : (m.heap a).isDir = true := by
      rw [hkey] at hkeyed
      cases hd : (m.heap a).isDir with
      | false =>
        rw [hd] at hkeyed hhas
        cases (Option.isSome_iff_exists.mp hhas).choose_spec.symm.trans hkeyed
      | true => rfl
    refine ⟨fun hgone => absurd hhas (hgone _), fun _ => ?_⟩
    refine ⟨a, _, rfl, child_of_set hm hpn ha _, ?_, fun hfile => ?_⟩
    · rw [hkind _ rfl]
      exact hhas
    · rw [hkind _ rfl, hdir] at hfile
      cases hfile

/-- It stores nothing exactly when the entry is a directory that no object marks. Otherwise it stores a mode, which no
    answer has. -/
theorem revalidation_supplied_iff :
    (∀ ino u, .update ino u ∈ (findDentry opt (s3Stor c) pino n false).trace ⟨m, t, now, garbage⟩ →
      ∃ key, .head key ∈ (findDentry opt (s3Stor c) pino n false).trace ⟨m, t, now, garbage⟩ ∧ Supplies (s3Stor c) t key u) ↔
    (m.heap a).isDir = true ∧ ¬ (view t).Holds (m.dirPrefix p ++ n ++ slash) := by
  have hm := hs.inv
  have hkey := ownKey_entry hs hp ha
  have hstored : ∀ {before after : List MetaAct} {obj : ObjInfo},
      ¬ ∀ ino u, .update ino u ∈ before ++ .update (m.heap a).inode.ino (headUpdate obj (m.heap a).isDir) :: after →
        ∃ key, .head key ∈ before ++ .update (m.heap a).inode.ino (headUpdate obj (m.heap a).isDir) :: after ∧
          Supplies (s3Stor c) t key u := by
    intro before after obj h
    obtain ⟨key, -, hsupplies⟩ := h _ _ (List.mem_append_right _ List.mem_cons_self)
    cases mode_of_supplies hsupplies
  cases hkeyed : view t (m.ownKey a) with
  | some body =>
    obtain ⟨r, t', hr, -⟩ := hc.head t _ body hkeyed
    rw [trace_findDentry_expired hm hp ha hexp (run_headFile_present hr _ garbage)]
    refine iff_of_false hstored fun ⟨hdir, hnone⟩ => hnone ?_
    rw [hkey, hdir] at hkeyed
    exact Option.isSome_iff_exists.mpr ⟨body, hkeyed⟩
  | none =>
    obtain ⟨msg, t', hr, -⟩ := hc.headNone t _ hkeyed
    rw [trace_findDentry_expired hm hp ha hexp (run_headFile_missing hr garbage)]
    cases hd : (m.heap a).isDir with
    | false =>
      rw [Bool.and_false, if_neg Bool.false_ne_true]
      exact iff_of_false (hd ▸ hstored) fun h => Bool.false_ne_true h.1
    | true =>
      rw [hkey, hd] at hkeyed
      refine iff_of_true (fun ino u hu => ?_) ⟨rfl, fun hholds => ?_⟩
      · simp at hu
      · cases (Option.isSome_iff_exists.mp hholds).choose_spec.symm.trans hkeyed

/-- A lookup of an expired entry is right exactly when the entry is a directory that no object marks, and the bucket has
    keys below it. -/
theorem revalidation_truthful_iff :
    Truthful (view t) (m.dirPrefix p ++ n) n p (s3Stor c) (findDentry opt (s3Stor c) pino n false) ⟨m, t, now, garbage⟩ ↔
      (m.heap a).isDir = true ∧ ¬ (view t).Holds (m.dirPrefix p ++ n ++ slash) ∧
        ∃ rest, (view t).Holds (m.dirPrefix p ++ n ++ slash ++ rest) := by
  constructor
  · intro h
    obtain ⟨hdir, hnone⟩ := (revalidation_supplied_iff hc hs hp ha hexp).mp h.supplied
    have hhas := (revalidation_agrees_iff hc hs hp ha hexp).mp h.toAgrees
    rw [hdir] at hhas
    exact ⟨hdir, hnone, hhas⟩
  · rintro ⟨hdir, hnone, hhas⟩
    refine ⟨(revalidation_agrees_iff hc hs hp ha hexp).mpr ?_, (revalidation_supplied_iff hc hs hp ha hexp).mpr ⟨hdir, hnone⟩⟩
    rw [hdir]
    exact hhas

end

/-- The directory `d` has no object, and its file is still there. -/
theorem revalidation_truthful_dir : Truthful (Log.holding ['d', '/', 'x']).bucket
    ((lookedUpCache ['d'] (Log.holding ['d', '/', 'x'])).dirPrefix 0 ++ ['d']) ['d'] 0 (s3Stor Log.client)
    (findDentry ⟨0, 0, 60⟩ (s3Stor Log.client) ROOT_INODE_ID ['d'] false)
    ⟨lookedUpCache ['d'] (Log.holding ['d', '/', 'x']), Log.holding ['d', '/', 'x'], ⟨100, 0⟩, noGarbage⟩ := by
  have hroot : (lookedUpCache ['d'] (Log.holding ['d', '/', 'x'])).lookup ROOT_INODE_ID = some 0 := by decide +kernel
  have hchild : ((lookedUpCache ['d'] (Log.holding ['d', '/', 'x'])).heap 0).getChild ['d'] = some 1 := by decide +kernel
  have hexp : ((lookedUpCache ['d'] (Log.holding ['d', '/', 'x'])).heap 1).isExpired ⟨100, 0⟩ = true := by decide +kernel
  have hdir : ((lookedUpCache ['d'] (Log.holding ['d', '/', 'x'])).heap 1).isDir = true := by decide +kernel
  have hpath : (lookedUpCache ['d'] (Log.holding ['d', '/', 'x'])).dirPrefix 0 ++ ['d'] = ['d'] := by decide +kernel
  have hmarked : ((Log.holding ['d', '/', 'x']).bucket ['d', '/']).isSome = false := by decide +kernel
  have hbelow : ((Log.holding ['d', '/', 'x']).bucket ['d', '/', 'x']).isSome = true := by decide +kernel
  refine (revalidation_truthful_iff Log.client_serves (reachable_lookedUpCache _ _) hroot hchild hexp).mpr ⟨hdir, ?_, ['x'], ?_⟩
  · rw [hpath]
    exact fun h => Bool.false_ne_true (hmarked.symm.trans h)
  · rw [hpath]
    exact hbelow

def ninetyNine : Garbage := { exist := false, size := 99, ctime := ⟨0, 0⟩, mtime := ⟨0, 0⟩ }

/-- Another client removed the object: the lookup still finds the file, and gives it the size that the memory held. -/
theorem revalidation_deleted : ¬ Truthful (Log.bucket []) ['f'] ['f'] 0 (s3Stor Log.client)
      (findDentry ⟨0, 0, 60⟩ (s3Stor Log.client) ROOT_INODE_ID ['f'] false)
      ⟨lookedUpCache ['f'] (Log.holding ['f']), [], ⟨100, 0⟩, ninetyNine⟩ ∧
    ((endState ((findDentry ⟨0, 0, 60⟩ (s3Stor Log.client) ROOT_INODE_ID ['f'] false).run
      ⟨lookedUpCache ['f'] (Log.holding ['f']), [], ⟨100, 0⟩, ninetyNine⟩)).cache.heap 1).inode.size = 99 := by
  refine ⟨fun h => ?_, by decide +kernel⟩
  have hnone : ∀ key, Log.bucket [] key = none := by
    intro key
    unfold Log.bucket
    split <;> rfl
  have hempty : ∀ k, ¬ (Log.bucket []).Has ['f'] k := by
    intro k hk
    cases k with
    | false => simp [Bucket.Has, Bucket.Holds, hnone] at hk
    | true => simp [Bucket.Has, Bucket.Holds, hnone] at hk
  obtain ⟨s, hrun, -⟩ := h.gone hempty
  have hfound : foundNothing ((findDentry ⟨0, 0, 60⟩ (s3Stor Log.client) ROOT_INODE_ID ['f'] false).run
      ⟨lookedUpCache ['f'] (Log.holding ['f']), [], ⟨100, 0⟩, ninetyNine⟩) = false := by decide +kernel
  rw [hrun] at hfound
  cases hfound

end MetaImpl

end Catfs
