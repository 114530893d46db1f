import Catfs.Theorems.LookupListing
import Catfs.Theorems.TreeKeys

/-! # The keys of the requests

Each request builds its keys from the prefix of the directory and the name, or from the path of the dentry. Both give the
same key for an entry. -/

namespace Catfs

open Lib MetaM LocalMemMeta
open EStateM (Result)

namespace MetaAct

/-- The key or prefix that the step names to the store. -/
def key : MetaAct → Option Str
  | .head key | .put key | .delete key | .list key _ => some key
  | _ => none

def KeyIn (K : Str → Prop) (l : MetaAct) : Prop := ∀ key, l.key = some key → K key

/-- The step changes no object, and asks for keys in `K` alone. -/
def Asks (K : Str → Prop) (l : MetaAct) : Prop := l.KeyIn K ∧ ∀ key, l ≠ .put key ∧ l ≠ .delete key

theorem keyIn_of_none {K : Str → Prop} {l : MetaAct} (h : l.key = none) : l.KeyIn K := fun key hk => by cases h.symm.trans hk

theorem asks_of_none {K : Str → Prop} {l : MetaAct} (h : l.key = none) : l.Asks K := by
  refine ⟨keyIn_of_none h, fun key => ⟨?_, ?_⟩⟩ <;> rintro rfl <;> cases h

theorem asks_head {K : Str → Prop} {key : Str} (h : K key) : (MetaAct.head key).Asks K :=
  ⟨fun _ hk => Option.some.inj hk ▸ h, fun _ => ⟨MetaAct.noConfusion, MetaAct.noConfusion⟩⟩

theorem asks_list {K : Str → Prop} {pre marker : Str} (h : K pre) : (MetaAct.list pre marker).Asks K :=
  ⟨fun _ hk => Option.some.inj hk ▸ h, fun _ => ⟨MetaAct.noConfusion, MetaAct.noConfusion⟩⟩

end MetaAct

namespace MetaImpl
variable {σ α β : Type} {opt : MetaOpt} {st : Stor σ} {s s' w : World σ} {pino ino : InodeID} {n path : Str} {m : LocalMemMeta}
  {p a c : Addr} {K : Str → Prop} {A : MetaAct → Prop}

/-! ### Steps without a key -/

/-- No step names a key. -/
abbrev Keyless (q : MetaM σ α) : Prop := q.Preserves (fun l => l.key = none) (fun _ => True) fun _ _ => True

theorem keyless_lift {l : MetaAct} {f : EStateM Err (World σ) α} (hl : l.key = none) : Keyless (Prog.lift l f) := by
  refine Prog.preserves_lift hl fun s _ _ => ?_
  cases f s
  · exact ⟨trivial, trivial, trivial⟩
  · exact ⟨trivial, trivial⟩

theorem keyless_fileKey {isRoot : Bool} : Keyless (fileKey p isRoot n : MetaM σ _) :=
  .ite trivial ((keyless_lift rfl).bind fun _ => trivial)

theorem keyless_newKey {mode : Mode} : Keyless (newKey p n mode : MetaM σ _) :=
  (keyless_lift rfl).bind fun _ => keyless_fileKey.bind fun _ => trivial

/-- The labels of the run are in `A`. -/
abbrev Traces (A : MetaAct → Prop) (q : MetaM σ α) (s : World σ) : Prop := ∀ l ∈ q.trace s, A l

theorem Keyless.asks {q : MetaM σ α} (h : Keyless q) : Traces (MetaAct.Asks K) q s :=
  fun l hl => MetaAct.asks_of_none (Prog.Preserves.trace h l hl)

theorem Keyless.keyIn {q : MetaM σ α} (h : Keyless q) : Traces (MetaAct.KeyIn K) q s := fun l hl => (h.asks l hl).1

theorem Keyless.noPut {q : MetaM σ α} (h : Keyless q) : Traces (fun l => ∀ key, l = .put key → K key) q s := by
  rintro l hl key rfl
  cases Prog.Preserves.trace h _ hl

theorem traces_lift {l : MetaAct} {f : EStateM Err (World σ) α} (h : A l) : Traces A (Prog.lift l f) s := by
  rintro l' hl
  rw [Prog.trace_lift, List.mem_singleton] at hl
  exact hl ▸ h

theorem traces_bind {q : MetaM σ α} {g : α → MetaM σ β} (hq : Traces A q s)
    (hg : ∀ r s', q.run s = .ok r s' → Traces A (g r) s') : Traces A (q >>= g) s := Prog.forall_trace_bind hq hg

theorem traces_bind_ok {q : MetaM σ α} {g : α → MetaM σ β} {r : α} (hq : Traces A q s) (hrun : q.run s = .ok r s')
    (hg : Traces A (g r) s') : Traces A (q >>= g) s := by
  refine traces_bind hq fun r' s₁ hr => ?_
  obtain ⟨rfl, rfl⟩ := Result.ok.inj (hrun.symm.trans hr)
  exact hg

theorem traces_map {q : MetaM σ α} {f : α → β} (hq : Traces A q s) : Traces A (f <$> q) s :=
  traces_bind hq fun _ _ _ _ hl => absurd hl List.not_mem_nil

theorem keyless_incTtl : Keyless (incTtl opt a : MetaM σ _) := keyless_lift rfl

theorem keyless_addVirtualDir : Keyless (addVirtualDir opt p n : MetaM σ _) :=
  (keyless_lift rfl).bind fun _ => (keyless_lift rfl).bind fun _ => keyless_incTtl.bind fun _ => trivial

/-- A program that only looks at the cache leaves it as it is. -/
theorem looked_at {q : MetaM σ α} {r : α} (hq : Looks q) (hs : CacheInv s) (h : q.run s = .ok r s') :
    CacheInv s' ∧ s'.cache = s.cache ∧ s'.now = s.now := by
  have hend := hq.run hs
  rw [h] at hend
  exact ⟨hend.1, hend.2.1, hend.2.2⟩

/-! ### Lookups -/

/-- The keys of the entry at `path`. -/
def EntryKey (path key : Str) : Prop := ∃ isDir, key = entryKey path isDir

theorem entryKey_file : EntryKey path path := ⟨false, rfl⟩

theorem entryKey_dir : EntryKey path (path ++ slash) := ⟨true, rfl⟩

theorem run_prefixOf (hs : CacheInv s) (ha : a < s.cache.heapNext) :
    (pathWithSlash a : MetaM σ _).run s = .ok (s.cache.dirPrefix a) s :=
  run_pathWithSlash hs ha

theorem asks_getRemoteObj (hs : CacheInv s) (hp : p < s.cache.heapNext) :
    Traces (MetaAct.Asks (EntryKey (s.cache.dirPrefix p ++ n))) (getRemoteObj st p n) s := by
  refine traces_bind_ok (keyless_lift rfl).asks (run_prefixOf hs hp) (traces_bind (keyless_lift rfl).asks fun resp s₁ _ =>
    traces_bind (traces_lift (MetaAct.asks_head entryKey_file)) fun resp' s₂ _ => ?_)
  cases resp'.exist with
  | true => exact fun l hl => absurd hl List.not_mem_nil
  | false =>
    exact traces_bind (traces_lift (MetaAct.asks_head entryKey_dir)) fun _ _ _ l hl => absurd hl List.not_mem_nil

/-- The last probe is the one that found the object: the one for a file, or the one for a directory. -/
theorem probe_found (hs : CacheInv s) (hp : p < s.cache.heapNext) {obj : ObjInfo} {isDir : Bool}
    (h : (getRemoteObj st p n).run s = .ok (obj, true, isDir) w) :
    ((getRemoteObj st p n).trace s).getLast? = some (.head (entryKey (s.cache.dirPrefix p ++ n) isDir)) := by
  obtain ⟨m, t, now, garbage⟩ := s
  have hpre : (pathWithSlash p : MetaM σ _).run ⟨m, t, now, garbage⟩ = .ok (m.dirPrefix p) ⟨m, t, now, garbage⟩ :=
    run_pathWithSlash hs hp
  have hresp : (headResp : MetaM σ _).run ⟨m, t, now, garbage⟩ = .ok (.uninit garbage) ⟨m, t, now, garbage⟩ := rfl
  have hhead : ∀ key resp s, (headFile st key resp).trace s = [.head key] := fun _ _ _ => Prog.trace_lift ..
  have hread : ∀ s, (pathWithSlash p : MetaM σ _).trace s = [.read p] := fun _ => Prog.trace_lift ..
  have hzero : ∀ s, (headResp : MetaM σ _).trace s = [.read 0] := fun _ => Prog.trace_lift ..
  rw [getRemoteObj, Prog.run_bind_ok hpre, Prog.run_bind_ok hresp] at h
  cases hr : (headFile st (m.dirPrefix p ++ n) (.uninit garbage)).run ⟨m, t, now, garbage⟩ with
  | error e w₁ =>
    rw [Prog.run_bind_error hr] at h
    cases h
  | ok resp w₁ =>
    rw [Prog.run_bind_ok hr] at h
    cases he : resp.exist with
    | true =>
      rw [he, if_pos rfl] at h
      cases h
      simp [getRemoteObj, Prog.trace_bind, hread, hpre, hzero, hresp, hhead, hr, he, entryKey]
    | false =>
      rw [he, if_neg Bool.false_ne_true] at h
      cases hr' : (headFile st (m.dirPrefix p ++ n ++ slash) resp).run w₁ with
      | error e w₂ =>
        rw [Prog.run_bind_error hr'] at h
        cases h
      | ok resp' w₂ =>
        rw [Prog.run_bind_ok hr'] at h
        obtain ⟨heq, -⟩ := Result.ok.inj h
        obtain ⟨-, hexist⟩ := Prod.mk.inj heq
        obtain ⟨-, hdir⟩ := Prod.mk.inj hexist
        have he' : resp'.exist = true := (Prod.mk.inj hexist).1
        obtain rfl : true = isDir := he'.symm.trans hdir
        simp only [getRemoteObj, Prog.trace_bind, hread, hpre, hzero, hresp, hhead, hr, he, hr', Bool.false_eq_true, if_false]
        rfl

/-! ### The entry that a request makes -/

/-- The entry `n` of `p` is at `c`, under the path `path`, and `isDir` says whether it is a directory. -/
structure ChildAt (m : LocalMemMeta) (p : Addr) (n path : Str) (isDir : Bool) (c : Addr) : Prop where
  child : (m.heap p).getChild n = some c
  path : m.fullPath c = some path
  kind : (m.heap c).isDir = isDir

theorem childAt_link (inode : Inode) (hm : m.Inv) (hp : p < m.heapNext) (hino : inode.ino = m.nextInodeId) :
    ChildAt (m.issue.link p n inode) p n (m.dirPrefix p ++ n) (inode.mode &&& S_IFDIR != 0) m.heapNext := by
  have hfresh : Fresh m.issue inode.ino := hino ▸ hm.fresh
  have hgrow : Grow m (m.issue.link p n inode) := Grow.issue.trans (.link hm.issue hp hfresh)
  have hinv : Inv (m.issue.link p n inode) := hm.issue.link hp hfresh
  have hchild : ((m.issue.link p n inode).heap p).getChild n = some m.heapNext := by
    rw [heap_link_parent (m := m.issue) hp]
    exact AList.lookup_insert _
  refine ⟨hchild, ?_, ?_⟩
  · rw [fullPath_child hinv (Nat.lt_of_lt_of_le hp hgrow.next) hchild, dirPrefix_grow hm hgrow hp]
  · have hnew := heap_link_new (m := m.issue) n inode hp
    rw [heapNext_issue] at hnew
    rw [hnew]
    rfl

theorem ChildAt.incTtl {isDir : Bool} (now : Timespec) (timeout : Nat) (hm : m.Inv) (hp : p < m.heapNext)
    (h : ChildAt m p n path isDir c) : ChildAt (m.set c (·.incTtl now timeout)) p n path isDir c where
  child := by
    rw [heap_set_ne (Nat.ne_of_lt (hm.child p n c hp h.child).1)]
    exact h.child
  path := by
    rw [fullPath_grow hm (.set Mild.incTtl) (hm.child p n c hp h.child).2.1]
    exact h.path
  kind := by
    rw [heap_set_self]
    exact h.kind

theorem objInode_kind {now : Timespec} {obj : ObjInfo} {isDir : Bool} :
    ((m.objInode now obj isDir).mode &&& S_IFDIR != 0) = isDir := by
  have htype : fileType (m.objInode now obj isDir).mode = if isDir then S_IFDIR else S_IFREG := by
    have hbase : fileType (if isDir then S_IFDIR ||| 0o766#32 else S_IFREG ||| 0o644#32) = if isDir then S_IFDIR else S_IFREG := by
      cases isDir <;> decide
    rw [← hbase]
    unfold objInode
    cases obj.mode with
    | none => rfl
    | some perm => exact fileType_withPerm
  rw [and_dir, htype]
  cases isDir <;> decide

section
variable (hs : CacheInv s) (hp : s.cache.lookup pino = some p) (hnone : (s.cache.heap p).getChild n = none)
include hs hp hnone

/-- An object that was found becomes the entry, with the kind of the probe that found it. -/
theorem found_entry {obj : ObjInfo} {isDir : Bool} (h : (getRemoteObj st p n).run s = .ok (obj, true, isDir) w) :
    ∃ s' c, (findDentry opt st pino n false).run s = .ok (some c) s' ∧
      ChildAt s'.cache p n (s.cache.dirPrefix p ++ n) isDir c := by
  obtain ⟨-, hcache, hnow⟩ := looked_at looks_getRemoteObj hs h
  obtain ⟨m, t, now, garbage⟩ := w
  obtain rfl : m = s.cache := hcache
  obtain rfl : now = s.now := hnow
  have halloc := (hs.indexed _ _ hp).1
  have hmade := childAt_link (n := n) (s.cache.objInode s.now obj isDir) hs halloc rfl
  rw [objInode_kind] at hmade
  have hinv' : Inv (s.cache.issue.link p n (s.cache.objInode s.now obj isDir)) := hs.issue.link halloc hs.fresh
  exact ⟨_, _, run_findDentry_found hs hp hnone h rfl, hmade.incTtl s.now opt.dcacheTimeout hinv' (Nat.lt_succ_of_lt halloc)⟩

/-- A directory that is only a part of keys has the kind of its parent. -/
theorem virtual_entry {obj : ObjInfo} {isDir : Bool} (h : (getRemoteObj st p n).run s = .ok (obj, false, isDir) w)
    (hfind : (findDentry opt st pino n false).run s = .ok (some c) s') :
    ChildAt s'.cache p n (s.cache.dirPrefix p ++ n) (s.cache.heap p).isDir c := by
  obtain ⟨hinv, hcache, hnow⟩ := looked_at looks_getRemoteObj hs h
  obtain ⟨m, t, now, garbage⟩ := w
  obtain rfl : m = s.cache := hcache
  obtain rfl : now = s.now := hnow
  have halloc := (hs.indexed _ _ hp).1
  cases hr : (isRemoteDirExist st (s.cache.dirPrefix p ++ n ++ slash)).run ⟨s.cache, t, s.now, garbage⟩ with
  | error e w₂ =>
    rw [run_findDentry_remote hp hnone h, if_neg Bool.false_ne_true, Prog.run_bind_ok (run_pathWithSlash hinv halloc),
      Prog.run_bind_error hr] at hfind
    cases hfind
  | ok exist w₂ =>
    obtain ⟨-, hcache₂, hnow₂⟩ := looked_at looks_isRemoteDirExist hinv hr
    obtain ⟨m₂, t₂, now₂, garbage₂⟩ := w₂
    obtain rfl : m₂ = s.cache := hcache₂
    obtain rfl : now₂ = s.now := hnow₂
    cases exist with
    | false =>
      rw [run_findDentry_nothing hs hp hnone h rfl hr] at hfind
      cases hfind
    | true =>
      rw [run_findDentry_virtual hs hp hnone h rfl hr] at hfind
      obtain ⟨hc, rfl⟩ := Result.ok.inj hfind
      obtain rfl := Option.some.inj hc
      have hmade := childAt_link (n := n) (s.cache.newInode s.now (s.cache.heap p).inode.mode (s.cache.heap p).inode.gid
        (s.cache.heap p).inode.uid) hs halloc rfl
      exact hmade.incTtl s.now opt.dcacheTimeout (hs.issue.link halloc hs.fresh) (Nat.lt_succ_of_lt halloc)

theorem asks_findDentry_remote : Traces (MetaAct.Asks (EntryKey (s.cache.dirPrefix p ++ n))) (findDentry opt st pino n false) s := by
  have halloc := (hs.indexed _ _ hp).1
  have hfind : (cache (.find pino n) fun _ => LocalMemMeta.findDentry pino n : MetaM σ _).run s = .ok none s :=
    hnone ▸ run_cache_ok (LocalMemMeta.run_findDentry hp)
  have hget : (getDentry pino : MetaM σ _).run s = .ok (some p) s := hp ▸ run_cache_ok run_getDentry
  refine traces_bind_ok (keyless_lift rfl).asks hfind (traces_bind_ok (keyless_lift rfl).asks hget ?_)
  refine traces_bind (asks_getRemoteObj hs halloc) fun r w hr => ?_
  obtain ⟨obj, exist, isDir⟩ := r
  cases exist with
  | true => exact Keyless.asks ((keyless_lift rfl).bind fun _ => keyless_incTtl.bind fun _ => trivial)
  | false =>
    obtain ⟨hinv, hcache, -⟩ := looked_at looks_getRemoteObj hs hr
    rw [← hcache]
    refine traces_bind_ok (keyless_lift rfl).asks (run_prefixOf hinv (hcache ▸ halloc)) (traces_bind (traces_bind
      (traces_lift (MetaAct.asks_list entryKey_dir)) fun _ _ _ l hl => absurd hl List.not_mem_nil) fun found _ _ => ?_)
    cases found with
    | true => exact traces_map keyless_addVirtualDir.asks
    | false => exact fun l hl => absurd hl List.not_mem_nil

/-- The object of a new entry is put under the key that the entry then has. -/
theorem put_entry {mode : Mode} {key : Str} (hput : .put key ∈ (createDentry opt st pino n mode).trace s) :
    key = entryKey (s.cache.dirPrefix p ++ n) (mode &&& S_IFDIR != 0) ∧
      ∀ c s', (createDentry opt st pino n mode).run s = .ok c s' →
        ChildAt s'.cache p n (s.cache.dirPrefix p ++ n) (mode &&& S_IFDIR != 0) c := by
  have halloc := (hs.indexed _ _ hp).1
  have hlookup : Edited (LookupEdit opt st s pino n) s (· = s) (findDentry opt st pino n false) _ := edited_findDentry hs
  have hedited := hlookup s ⟨⟨hs, rfl, .refl⟩, rfl⟩
  rw [createDentry, Prog.trace_bind] at hput
  have hput := (List.mem_append.mp hput).resolve_left fun hmem => ((asks_findDentry_remote hs hp hnone _ hmem).2 key).1 rfl
  cases hfind : (findDentry opt st pino n false).run s with
  | error e s₁ =>
    rw [hfind] at hput
    cases hput
  | ok r s₁ =>
    rw [hfind] at hput hedited
    cases r with
    | some d => cases hput
    | none =>
      obtain ⟨htrail, hsame⟩ := hedited
      obtain ⟨hcache, -⟩ := hsame rfl
      have hnow := htrail.now
      obtain ⟨m, t, now, garbage⟩ := s₁
      obtain rfl : m = s.cache := hcache
      obtain rfl : now = s.now := hnow
      have hget : (getDentry pino : MetaM σ _).run ⟨s.cache, t, s.now, garbage⟩ = .ok (some p) ⟨s.cache, t, s.now, garbage⟩ :=
        hp ▸ run_cache_ok run_getDentry
      have hderef : (deref (some p) : MetaM σ _).run ⟨s.cache, t, s.now, garbage⟩ = .ok p ⟨s.cache, t, s.now, garbage⟩ := rfl
      have hkey : (newKey p n mode : MetaM σ _).run ⟨s.cache, t, s.now, garbage⟩ =
          .ok (s.cache.dirPrefix p ++ (n ++ keyEnd mode)) ⟨s.cache, t, s.now, garbage⟩ := run_newKey hs halloc
      have hsame : s.cache.dirPrefix p ++ (n ++ keyEnd mode) = entryKey (s.cache.dirPrefix p ++ n) (mode &&& S_IFDIR != 0) := by
        rw [← List.append_assoc, append_keyEnd]
      refine ⟨?_, fun c s' hrun => ?_⟩
      · have hputs : ∀ {q : MetaM σ Addr} {w : World σ}, .put key ∈ q.trace w → Traces (fun l => ∀ key, l = .put key →
            key = entryKey (s.cache.dirPrefix p ++ n) (mode &&& S_IFDIR != 0)) q w →
              key = entryKey (s.cache.dirPrefix p ++ n) (mode &&& S_IFDIR != 0) := fun hmem h => h _ hmem key rfl
        refine hputs hput ?_
        refine traces_bind_ok (keyless_lift rfl).noPut hget ?_
        refine traces_bind_ok (fun l hl => absurd hl List.not_mem_nil) hderef ?_
        refine traces_bind_ok keyless_newKey.noPut hkey (traces_bind_ok (keyless_lift rfl).noPut run_readDentry ?_)
        exact traces_bind (traces_lift fun key hk => (MetaAct.put.inj hk).symm.trans hsame) fun _ _ _ => (keyless_lift rfl).noPut
      · rw [createDentry, Prog.run_bind_ok hfind] at hrun
        dsimp only at hrun
        rw [Prog.run_bind_ok hget, Prog.run_bind_ok hderef, Prog.run_bind_ok hkey, Prog.run_bind_ok run_readDentry,
          Prog.run_bind_apply] at hrun
        split at hrun
        · rename_i w hcall
          obtain ⟨-, hcache₂, hnow₂⟩ := looked_at (looks_call rfl) htrail.inv hcall
          obtain ⟨m₂, t₂, now₂, garbage₂⟩ := w
          obtain rfl : m₂ = s.cache := hcache₂
          obtain rfl : now₂ = s.now := hnow₂
          have hmake : (do
              let inode ← createNewInode s.now mode (s.cache.heap p).inode.gid (s.cache.heap p).inode.uid
              LocalMemMeta.createDentry pino n inode : LocalM Addr) s.cache = .ok s.cache.heapNext (s.cache.issue.link p n
                (s.cache.newInode s.now mode (s.cache.heap p).inode.gid (s.cache.heap p).inode.uid)) := by
            rw [bind_ok run_createNewInode]
            exact run_createDentry (m := s.cache.issue) hp halloc
          rw [run_cache_ok hmake] at hrun
          obtain ⟨rfl, rfl⟩ := Result.ok.inj hrun
          exact childAt_link (n := n) (s.cache.newInode s.now mode (s.cache.heap p).inode.gid (s.cache.heap p).inode.uid) hs
            halloc rfl
        · cases hrun

end

/-! ### The requests for an entry -/

section
variable (hs : CacheInv s) (hp : s.cache.lookup pino = some p) (ha : (s.cache.heap p).getChild n = some a)
include hs hp ha

omit hp in
theorem ownKey_child (halloc : p < s.cache.heapNext) :
    s.cache.ownKey a = entryKey (s.cache.dirPrefix p ++ n) (s.cache.heap a).isDir := by
  unfold ownKey entryKey
  rw [dirPrefix_child hs halloc ha, fullPath_child hs halloc ha]
  rfl

/-- A lookup of a cached entry asks for its own key alone. -/
theorem asks_findDentry_cached : Traces (MetaAct.Asks (· = entryKey (s.cache.dirPrefix p ++ n) (s.cache.heap a).isDir))
    (findDentry opt st pino n false) s := by
  have halloc := (hs.indexed _ _ hp).1
  have halloc' := (hs.child p n a halloc ha).2.1
  have hfind : (cache (.find pino n) fun _ => LocalMemMeta.findDentry pino n : MetaM σ _).run s = .ok (some a) s :=
    ha ▸ run_cache_ok (LocalMemMeta.run_findDentry hp)
  have hexpired : (isExpired a : MetaM σ _).run s = .ok ((s.cache.heap a).isExpired s.now) s := rfl
  refine traces_bind_ok (keyless_lift rfl).asks hfind (traces_bind_ok (keyless_lift rfl).asks hexpired ?_)
  cases (s.cache.heap a).isExpired s.now with
  | false => exact fun l hl => absurd hl List.not_mem_nil
  | true =>
    have hread : (readDentry a : MetaM σ _).run s = .ok (s.cache.heap a) s := run_readDentry
    have hkeyless : Keyless (headKey a (s.cache.heap a).isDir : MetaM σ _) := .ite (keyless_lift rfl) (keyless_lift rfl)
    refine traces_bind_ok (keyless_lift rfl).asks hread (traces_bind_ok hkeyless.asks (run_headKey hs halloc') ?_)
    refine traces_bind (keyless_lift rfl).asks fun resp s₁ _ =>
      traces_bind (traces_lift (MetaAct.asks_head (ownKey_child hs ha halloc))) fun resp' s₂ _ => ?_
    refine Keyless.asks (Prog.Preserves.ite ?_ ?_)
    · exact keyless_incTtl.bind fun _ => trivial
    · exact (keyless_lift rfl).bind fun _ => keyless_incTtl.bind fun _ => trivial

omit hs in
theorem returns_cached {r : Option Addr} (h : (findDentry opt st pino n false).run s = .ok r s') : r = some a := by
  have hfind : (cache (.find pino n) fun _ => LocalMemMeta.findDentry pino n : MetaM σ _).run s = .ok (some a) s :=
    ha ▸ run_cache_ok (LocalMemMeta.run_findDentry hp)
  have hexpired : (isExpired a : MetaM σ _).run s = .ok ((s.cache.heap a).isExpired s.now) s := rfl
  rw [findDentry, Prog.run_bind_ok hfind] at h
  dsimp only at h
  rw [Prog.run_bind_ok hexpired] at h
  split at h
  · exact (returns_revalidate.run h).symm ▸ rfl
  · obtain ⟨rfl, -⟩ := Result.ok.inj h
    rfl

/-- A removal sends the key of the entry alone. -/
theorem keyIn_removeDentry (hst : st.Delimited) :
    Traces (MetaAct.KeyIn (· = entryKey (s.cache.dirPrefix p ++ n) (s.cache.heap a).isDir)) (removeDentry opt st pino n) s := by
  have halloc := (hs.indexed _ _ hp).1
  have halloc' := (hs.child p n a halloc ha).2.1
  have hlookup : Edited (LookupEdit opt st s pino n) s (· = s) (findDentry opt st pino n false) _ := edited_findDentry hs
  have hedited := hlookup s ⟨⟨hs, rfl, .refl⟩, rfl⟩
  refine traces_bind (fun l hl => (asks_findDentry_cached hs hp ha l hl).1) fun r s₁ hfind => ?_
  rw [hfind] at hedited
  obtain rfl := returns_cached hp ha hfind
  have htrail := hedited.1
  have hgrow := htrail.grow hs
  have hkind : KindsFrom s.cache s₁.cache := by
    refine (htrail.edits.keeps hs (K := fun m => s.cache.heapNext ≤ m.heapNext ∧ KindsFrom s.cache m)
      ⟨Nat.le_refl _, fun _ _ => rfl⟩ fun e m m' hm _ hk he hl => ?_).2
    exact ⟨Nat.le_trans hk.1 (hl.keeps hm).2.next, kindsFrom_lookupEdit hst hk.1 hk.2 he hl⟩
  have hpath : s₁.cache.fullPath a = some (s.cache.dirPrefix p ++ n) :=
    (fullPath_grow hs hgrow halloc').trans (fullPath_child hs halloc ha)
  have hfull : (fullPath a : MetaM σ _).run s₁ = .ok (s.cache.dirPrefix p ++ n) s₁ := run_cache_ok (run_getFullPath hpath)
  have hread : (readDentry a : MetaM σ _).run s₁ = .ok (s₁.cache.heap a) s₁ := run_readDentry
  dsimp only
  refine traces_bind_ok (keyless_lift rfl).keyIn hfull (traces_bind_ok (keyless_lift rfl).keyIn hread ?_)
  rw [← hkind a halloc']
  have hdelete : ∀ {key : Str} {isDir : Bool} {w : World σ}, key = entryKey (s.cache.dirPrefix p ++ n) isDir →
      Traces (MetaAct.KeyIn (· = entryKey (s.cache.dirPrefix p ++ n) isDir)) (do
        call (.delete key) (st.deleteFile { objKey := key })
        cache (.erase pino n) fun _ => LocalMemMeta.removeDentry pino n : MetaM σ Unit) w := fun hkey =>
    traces_bind (traces_lift fun _ hk => (Option.some.inj hk).symm.trans hkey) fun _ _ _ => (keyless_lift rfl).keyIn
  cases (s₁.cache.heap a).isDir with
  | false => exact hdelete rfl
  | true =>
    rw [if_pos rfl]
    split
    · exact fun l hl => absurd hl List.not_mem_nil
    · exact hdelete rfl

end

/-! ### Listings and open files -/

theorem keyIn_refreshLoop {pre : Str} (fuel : Nat) (marker : Str) :
    Traces (MetaAct.KeyIn (· = pre)) (refreshLoop st ino pre fuel marker) s := by
  induction fuel generalizing marker s with
  | zero => exact fun l hl => absurd hl List.not_mem_nil
  | succ fuel ih =>
    refine traces_bind (traces_lift fun _ hk => (Option.some.inj hk).symm) fun resp s₁ _ => ?_
    cases buildFtree pre resp with
    | none => exact fun l hl => absurd hl List.not_mem_nil
    | some nodes =>
      refine traces_bind (keyless_lift rfl).keyIn fun _ s₂ _ => ?_
      cases resp.isTrunc with
      | true => exact ih _
      | false => exact fun l hl => absurd hl List.not_mem_nil

theorem keyIn_loadSubDentries (hs : CacheInv s) (ha : s.cache.lookup ino = some a) (fuel : Nat) :
    Traces (MetaAct.KeyIn (· = s.cache.dirPrefix a)) (loadSubDentries st fuel ino) s := by
  have halloc := (hs.indexed _ _ ha).1
  have hget : (getDentry ino : MetaM σ _).run s = .ok (some a) s := ha ▸ run_cache_ok run_getDentry
  have hread : (readDentry a : MetaM σ _).run s = .ok (s.cache.heap a) s := run_readDentry
  have hlist : Keyless (listChildren a : MetaM σ _) := (keyless_lift rfl).bind fun _ => trivial
  refine traces_bind_ok (keyless_lift rfl).keyIn hget (traces_bind (keyless_lift rfl).keyIn fun stale s₁ hneeds => ?_)
  obtain ⟨rfl, rfl⟩ := Result.ok.inj hneeds
  cases (!(s.cache.heap a).complete || (s.cache.heap a).isExpired s.now) with
  | false => exact hlist.keyIn
  | true =>
    refine traces_bind (traces_bind_ok (keyless_lift rfl).keyIn (run_prefixOf hs halloc)
      (traces_bind_ok (keyless_lift rfl).keyIn hread (traces_bind (keyIn_refreshLoop fuel []) fun _ _ _ =>
        (keyless_lift rfl).keyIn))) fun _ _ _ => hlist.keyIn

/-- The keys that the requests build for an entry are those that its own path gives. -/
structure KeysAgree (opt : MetaOpt) (st : Stor σ) (s : World σ) : Prop where
  probe : ∀ pino p n, s.cache.lookup pino = some p → (s.cache.heap p).getChild n = none →
    Traces (MetaAct.Asks (EntryKey (s.cache.dirPrefix p ++ n))) (findDentry opt st pino n false) s
  found : ∀ pino p n obj isDir w, s.cache.lookup pino = some p → (s.cache.heap p).getChild n = none →
    (getRemoteObj st p n).run s = .ok (obj, true, isDir) w →
    ((getRemoteObj st p n).trace s).getLast? = some (.head (entryKey (s.cache.dirPrefix p ++ n) isDir)) ∧
      ∃ s' c, (findDentry opt st pino n false).run s = .ok (some c) s' ∧
        ChildAt s'.cache p n (s.cache.dirPrefix p ++ n) isDir c
  virtual : ∀ pino p n obj isDir w c s', s.cache.lookup pino = some p → (s.cache.heap p).getChild n = none →
    (getRemoteObj st p n).run s = .ok (obj, false, isDir) w → (findDentry opt st pino n false).run s = .ok (some c) s' →
    ChildAt s'.cache p n (s.cache.dirPrefix p ++ n) (s.cache.heap p).isDir c
  put : ∀ pino p n mode key, s.cache.lookup pino = some p → (s.cache.heap p).getChild n = none →
    .put key ∈ (createDentry opt st pino n mode).trace s →
    key = entryKey (s.cache.dirPrefix p ++ n) (mode &&& S_IFDIR != 0) ∧
      ∀ c s', (createDentry opt st pino n mode).run s = .ok c s' →
        ChildAt s'.cache p n (s.cache.dirPrefix p ++ n) (mode &&& S_IFDIR != 0) c
  cached : ∀ pino p n a, s.cache.lookup pino = some p → (s.cache.heap p).getChild n = some a →
    s.cache.fullPath a = some (s.cache.dirPrefix p ++ n) ∧
      Traces (MetaAct.Asks (· = entryKey (s.cache.dirPrefix p ++ n) (s.cache.heap a).isDir)) (findDentry opt st pino n false) s ∧
      Traces (MetaAct.KeyIn (· = entryKey (s.cache.dirPrefix p ++ n) (s.cache.heap a).isDir)) (removeDentry opt st pino n) s
  listed : ∀ ino a fuel, s.cache.lookup ino = some a →
    Traces (MetaAct.KeyIn (· = s.cache.dirPrefix a)) (loadSubDentries st fuel ino) s ∧
      (a ≠ s.cache.rootDentry → ∀ path, s.cache.fullPath a = some path → s.cache.dirPrefix a = entryKey path true)
  opened : ∀ (fs : CatFS σ) ino a hasWrote hno fs', fs.world = s → s.cache.lookup ino = some a →
    CatFS.openfile ino hasWrote fs = .ok hno fs' → ∃ file, fs'.openFiles hno = some file ∧
      s.cache.fullPath a = some file.rtfile.path ∧ file.writer.filePath = file.rtfile.path

theorem keysAgree (hst : st.Delimited) (hs : CacheInv s) : KeysAgree opt st s where
  probe _ _ _ := asks_findDentry_remote hs
  found _ _ _ _ _ _ hp hnone hrun := ⟨probe_found hs (hs.indexed _ _ hp).1 hrun, found_entry hs hp hnone hrun⟩
  virtual _ _ _ _ _ _ _ _ hp hnone hrun hfind := virtual_entry hs hp hnone hrun hfind
  put _ _ _ _ _ hp hnone hput := put_entry hs hp hnone hput
  cached _ _ _ _ hp ha := ⟨fullPath_child hs (hs.indexed _ _ hp).1 ha, asks_findDentry_cached hs hp ha,
    keyIn_removeDentry hs hp ha hst⟩
  listed ino a fuel ha := by
    refine ⟨keyIn_loadSubDentries hs ha fuel, fun hroot path hpath => ?_⟩
    have hnot : ¬ (s.cache.heap a).isRoot = true := fun h => hroot (hs.root ▸ (isRoot_iff hs (hs.indexed _ _ ha).1).mp h)
    rw [dirPrefix, if_neg hnot, hpath]
    rfl
  opened fs ino a hasWrote hno fs' hworld ha hopen := by
    subst hworld
    obtain ⟨path, hpath⟩ := fullPath_some hs (hs.indexed _ _ ha).1
    obtain ⟨rfl, rfl⟩ := Result.ok.inj ((CatFS.run_openfile ha hpath).symm.trans hopen)
    exact ⟨_, CatFS.setFile_self, hpath, rfl⟩

/-- In a run from a new mount over a store that lists with a delimiter and stores no modes: the full path of a dentry in
    the tree is the names on the way to it, and its components lead back to it alone; the keys of the requests for an entry
    are those of the entry's own path; and neither the path nor the kind of a dentry ever changes. -/
theorem paths_and_keys (hst : st.Delimited) {start now : Timespec} {t : σ} {garbage : Garbage}
    (h : Requests opt st PlainEntry ⟨.new opt start, t, now, garbage⟩ s) (h' : Requests opt st PlainEntry s s') :
    (∀ d, Attached s.cache d → d ≠ s.cache.rootDentry → ∃ ws, PathTo s.cache d ws ∧
      s.cache.fullPath d = some (slash.intercalate ws) ∧ s.cache.walkFrom ((slash.intercalate ws).splitOn '/') = some d) ∧
    (∀ d d', Attached s.cache d → Attached s.cache d' → d ≠ s.cache.rootDentry → d' ≠ s.cache.rootDentry →
      s.cache.fullPath d = s.cache.fullPath d' → d = d') ∧
    KeysAgree opt st s ∧
    ∀ d, d < s.cache.heapNext →
      s'.cache.fullPath d = s.cache.fullPath d ∧ (s'.cache.heap d).isDir = (s.cache.heap d).isDir := by
  have hnew : CacheInv (⟨.new opt start, t, now, garbage⟩ : World σ) := Inv.new opt start
  have hplainNew : PlainNames (.new opt start) := by
    intro a ha
    rw [Nat.lt_one_iff.mp ha]
    exact List.not_mem_nil
  obtain ⟨hs, -, -⟩ := kinds_requests hst h hnew
  have hplain := plain_requests hst h hnew hplainNew
  obtain ⟨-, hgrow, hkinds⟩ := kinds_requests hst h' hs
  exact ⟨fun d hd hroot => hd.walk_fullPath hs hplain hroot,
    fun d d' hd hd' hroot hroot' hpath => fullPath_inj hs hplain hd hd' hroot hroot' hpath, keysAgree hst hs,
    fun d hd => ⟨fullPath_grow hs hgrow hd, hkinds d hd⟩⟩

theorem paths_and_keys_created : (created S_IFDIR).cache.fullPath 1 = some ['x'] ∧
    KeysAgree ⟨0, 0, 60⟩ (s3Stor Log.client) (created S_IFDIR) ∧
    ((lookedLater S_IFDIR).cache.heap 1).isDir = ((created S_IFDIR).cache.heap 1).isDir := by
  have hentry : ∀ (r : Request) (s : World Log), r.entry = some (ROOT_INODE_ID, ['x']) → PlainEntry r s := by
    intro r s hr pino n hentry
    obtain ⟨-, rfl⟩ := Prod.mk.inj (Option.some.inj (hr.symm.trans hentry))
    exact ⟨by decide, by decide⟩
  obtain ⟨-, -, hkeys, hlast⟩ := paths_and_keys Log.client_serves.delimited
    (.request .start 1 _ (hentry _ _ rfl)) (requests_lookedLater (hentry _ _ rfl))
  exact ⟨by decide +kernel, hkeys, (hlast 1 (by decide +kernel)).2⟩

end MetaImpl

end Catfs
