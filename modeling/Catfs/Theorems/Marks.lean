import Catfs.Theorems.FileTypes
import Catfs.Theorems.DirHandles

/-! # What the marks keep

A listing marks the children that it names, and the sweep after it removes those without a mark. A file that stays loses
its mark, and a directory that stays gets it again. So a directory that was listed once is never taken for gone
(`listed_dir_stays`), and after two listings that the process survives the children are what the bucket yields and those
directories (`refreshes_settle`). -/

namespace Catfs

open Lib MetaM LocalMemMeta
open EStateM (Result)

/-- A node of a whole listing that has a name stands for one that the bucket yields. -/
theorem NodesFor.yields {b : Bucket} {pre : Str} {contents : List S3Object} {commonPrefixes : List Str} {nodes : List FTreeNode}
    (hn : NodesFor pre contents commonPrefixes nodes) (hl : b.Listing pre contents commonPrefixes) {node : FTreeNode}
    (hnode : node ∈ nodes) (hne : node.name ≠ []) : b.Yields pre node.name := by
  refine hl.yields_iff.mpr ⟨hne, ?_⟩
  rcases hn.listed node hnode with ⟨-, -, hprefix⟩ | ⟨-, o, ho, hkey, -⟩
  · obtain ⟨k, hk, hslash, -⟩ := (hl.prefixes _).mp hprefix
    rw [List.append_assoc, List.append_assoc] at hk
    rw [List.append_cancel_right (List.append_cancel_left hk)] at hprefix ⊢
    exact .inr ⟨hslash, hprefix⟩
  · exact .inl ⟨o, ho, hkey⟩

namespace LocalMemMeta
variable {m m' m₀ : LocalMemMeta} {a b c d p q : Addr} {n name : Str} {now : Timespec} {f : Dentry → Dentry} {inode : Inode}

/-! ### The marks after a sweep -/

/-- The files that the sweep kept so far carry no mark. -/
def FilesUnmarked (m₀ : LocalMemMeta) (vs : List Addr) (m : LocalMemMeta) : Prop :=
  ∀ v ∈ vs, ∀ n c, m₀.KeptChild v n c → (m₀.heap c).isDir = false → (m.heap c).synced = false

theorem keepChild_synced {t : Nat} {d : Dentry} : (keepChild now t d).synced = false := by
  unfold keepChild
  dsimp only
  split <;> rfl

theorem FilesUnmarked.turn {vs queue pushed : List Addr} (h : Sweeping now m₀ p vs (a :: queue) m) (hm₀ : Inv m₀)
    (hp : p < m₀.heapNext) (ht : Turn now a m m' pushed) (hfiles : FilesUnmarked m₀ vs m) : FilesUnmarked m₀ (vs ++ [a]) m' := by
  intro v hv n c hk hd
  have hav : m₀.Visited p a := h.visited a (by simp)
  have hvv : m₀.Visited p v := by
    rcases List.mem_append.mp hv with hv | hv
    · exact h.visited v (List.mem_append_left _ hv)
    · exact List.mem_singleton.mp hv ▸ hav
  have hca : c ≠ a := by
    intro hca
    rw [hca] at hk hd
    cases hav with
    | start =>
      obtain ⟨hle, hlt⟩ := hvv.allocated hm₀ hp
      exact Nat.not_lt.mpr hle (hm₀.child v n _ hlt hk.1).1
    | down _ _ hdir =>
      rw [hdir] at hd
      cases hd
  rcases h.turn_cases hm₀ hp ht hca with hsame | ⟨-, -, hkept⟩
  · rw [hsame]
    rcases List.mem_append.mp hv with hv | hv
    · exact hfiles v hv n c hk hd
    · obtain rfl := List.mem_singleton.mp hv
      have hkept := ht.kept n c ((h.keptChild hm₀ hp).mpr hk)
      rw [← hsame, hkept]
      exact keepChild_synced
  · rw [hkept]
    exact keepChild_synced

theorem FilesUnmarked.run {vs queue : List Addr} {m₁ : LocalMemMeta} (h : Sweeping now m₀ p vs queue m) (hm₀ : Inv m₀)
    (hp : p < m₀.heapNext) (hfiles : FilesUnmarked m₀ vs m) (fuel : Nat) (hrun : sweepLoop now fuel queue m = .ok () m₁) :
    ∃ vs, Sweeping now m₀ p vs [] m₁ ∧ FilesUnmarked m₀ vs m₁ := by
  induction fuel generalizing vs queue m with
  | zero =>
    cases queue with
    | nil =>
      obtain ⟨-, rfl⟩ := Result.ok.inj hrun
      exact ⟨vs, h, hfiles⟩
    | cons a queue => cases hrun
  | succ fuel ih =>
    cases queue with
    | nil =>
      obtain ⟨-, rfl⟩ := Result.ok.inj hrun
      exact ⟨vs, h, hfiles⟩
    | cons a queue =>
      have ha : a < m.heapNext := h.next ▸ ((h.visited a (by simp)).allocated hm₀ hp).2
      obtain ⟨pushed, m', hturn, ht⟩ := run_turn now h.inv ha fuel queue
      rw [hturn] at hrun
      exact ih (h.turn hm₀ hp ht) (hfiles.turn h hm₀ hp ht) hrun

/-- After a sweep from `a` the children of `a` that carry a mark are the directories among them. -/
def MarksDirs (a : Addr) (m : LocalMemMeta) : Prop :=
  ∀ n c, (m.heap a).getChild n = some c → ((m.heap c).synced = true ↔ (m.heap c).isDir = true)

theorem marksDirs_sweep (hm : Inv m) (ha : a < m.heapNext) (hrun : clearUnsyncDentry now a m = .ok () m') :
    Swept a m m' ∧ MarksDirs a m' := by
  obtain ⟨m₁, hrun₁, hswept⟩ := run_clearUnsyncDentry now hm ha
  obtain ⟨-, rfl⟩ := Result.ok.inj (hrun₁.symm.trans hrun)
  refine ⟨hswept, fun n c hc => ?_⟩
  have hkept := (hswept.child a .start n c).mp hc
  have hkind : (m₁.heap c).isDir = (m.heap c).isDir := by rw [Dentry.isDir, hswept.inode c, Dentry.isDir]
  cases hdir : (m.heap c).isDir with
  | true =>
    exact iff_of_true (hswept.synced c (.down .start hkept hdir)) (hkind.trans hdir)
  | false =>
    have hstart : Sweeping now m a [] [a] m := .start hm
    obtain ⟨vs, hend, hfiles⟩ := FilesUnmarked.run hstart hm ha (fun v hv => by cases hv) m.heapNext hrun
    have hfirst := hend.first
    rw [List.append_nil] at hfirst
    refine iff_of_false ?_ ?_
    · rw [hfiles a hfirst n c hkept hdir]
      exact Bool.false_ne_true
    · rw [hkind, hdir]
      exact Bool.false_ne_true

/-! ### A directory that carries a mark -/

/-- Under `n` the directory `p` has the directory `d`, which carries a mark. -/
structure MarkedDir (p : Addr) (n : Str) (d : Addr) (m : LocalMemMeta) : Prop where
  alloc : p < m.heapNext
  kept : m.KeptChild p n d
  isDir : (m.heap d).isDir = true

theorem MarkedDir.set (h : MarkedDir p n d m) (hchildren : ∀ x, (f x).children = x.children)
    (hsynced : ∀ x, x.synced = true → (f x).synced = true)
    (hdir : a = d → (f (m.heap d)).isDir = true) : MarkedDir p n d (m.set a f) := by
  have hcases : ∀ b, (m.set a f).heap b = m.heap b ∨ a = b ∧ (m.set a f).heap b = f (m.heap b) := by
    intro b
    by_cases hb : b = a
    · exact .inr ⟨hb.symm, by rw [hb, heap_set_self]⟩
    · exact .inl (heap_set_ne hb)
  refine ⟨h.alloc, ⟨?_, ?_⟩, ?_⟩
  · rcases hcases p with he | ⟨-, he⟩
    · rw [he]
      exact h.kept.1
    · rw [he, Dentry.getChild, hchildren]
      exact h.kept.1
  · rcases hcases d with he | ⟨-, he⟩
    · rw [he]
      exact h.kept.2
    · rw [he]
      exact hsynced _ h.kept.2
  · rcases hcases d with he | ⟨had, he⟩
    · rw [he]
      exact h.isDir
    · rw [he]
      exact hdir had

theorem MarkedDir.link (h : MarkedDir p n d m) (hm : Inv m) (hq : q < m.heapNext) (hnone : (m.heap q).getChild name = none) :
    MarkedDir p n d (m.issue.link q name inode) := by
  have hdlt := (hm.child p n d h.alloc h.kept.1).2.1
  have hold : ∀ b, b < m.heapNext → ((m.issue.link q name inode).heap b).synced = (m.heap b).synced ∧
      ((m.issue.link q name inode).heap b).inode = (m.heap b).inode := by
    intro b hb
    by_cases hbq : b = q
    · rw [hbq, heap_link_parent (m := m.issue) hq]
      exact ⟨rfl, rfl⟩
    · rw [heap_link_other (m := m.issue) hb hbq]
      exact ⟨rfl, rfl⟩
  refine ⟨Nat.lt_succ_of_lt h.alloc, ⟨?_, (hold d hdlt).1.trans h.kept.2⟩, ?_⟩
  · by_cases hpq : p = q
    · have hne : n ≠ name := by
        rintro rfl
        rw [← hpq, h.kept.1] at hnone
        cases hnone
      rw [hpq, heap_link_parent (m := m.issue) hq]
      exact (AList.lookup_insert_ne hne).trans (hpq ▸ h.kept.1)
    · rw [heap_link_other (m := m.issue) h.alloc hpq]
      exact h.kept.1
  · rw [Dentry.isDir, (hold d hdlt).2]
    exact h.isDir

theorem MarkedDir.sweep (h : MarkedDir p n d m) (hm : Inv m) (hq : q < m.heapNext) (hs : Swept q m m') : MarkedDir p n d m' := by
  have hkind : (m'.heap d).isDir = true := by
    rw [Dentry.isDir, hs.inode d]
    exact h.isDir
  refine ⟨hs.next ▸ h.alloc, ?_, hkind⟩
  by_cases hv : m.Visited q p
  · exact ⟨(hs.child p hv n d).mpr h.kept, hs.synced d (.down hv h.kept h.isDir)⟩
  · refine ⟨?_, ?_⟩
    · rw [Dentry.getChild, hs.children p hv]
      exact h.kept.1
    · by_cases hvd : m.Visited q d
      · exact hs.synced d hvd
      · -- The sweep reads marks of the children of visited dentries alone, and `d` hangs in `p`.
        rw [hs.same d hvd fun v hvv k hk => ?_]
        · exact h.kept.2
        · have hparent := (hm.child p n d h.alloc h.kept.1).2.2.2
          have hparent' := (hm.child v k d (hvv.allocated hm hq).2 hk.1).2.2.2
          rw [hparent] at hparent'
          exact hv (Option.some.inj hparent' ▸ hvv)

end LocalMemMeta

namespace MetaImpl
variable {σ : Type} {c : S3Client σ} {opt : MetaOpt} {s s' : World σ} {m m' : LocalMemMeta} {p d : Addr} {n : Str} {e : Edit}
  {pino : InodeID} {name : Str} {mode : Mode} {r : Request}

/-! ### Runs without a removal of the entry -/

theorem markedDir_lookup (hs : CacheInv s) (hm : Inv m) (h : MarkedDir p n d m) (he : LookupEdit opt (s3Stor c) s pino name e m)
    (hl : e.Leads m m') : MarkedDir p n d m' := by
  cases he with
  | touch hp ha =>
    obtain ⟨-, -, -, rfl⟩ := hl
    exact h.set (fun _ => rfl) (fun _ hsync => hsync) fun had => had ▸ h.isDir
  | @update q a resp t hp ha hexpired hhead hfound =>
    obtain ⟨-, -, -, rfl⟩ := hl
    refine h.set (fun _ => rfl) (fun _ hsync => hsync) ?_
    rintro rfl
    have hnone : resp.obj.mode = none := mode_headFile rfl hhead
    have hmode : headMode resp.obj true = S_IFDIR ||| 0o755#32 := by
      rw [headMode, hnone]
      rfl
    show (headMode resp.obj (s.cache.heap a).isDir &&& S_IFDIR != 0) = true
    rw [h.isDir, hmode]
    decide
  | object hp hnone obj isDir =>
    obtain ⟨-, -, rfl⟩ := hl
    exact h.link hm (hs.indexed _ _ hp).1 hnone
  | virtual hp hnone =>
    obtain ⟨-, -, rfl⟩ := hl
    exact h.link hm (hs.indexed _ _ hp).1 hnone

/-- Every edit of a request that does not remove the entry `n` of `p` keeps it. -/
theorem markedDir_edit (hs : CacheInv s) (hp : p < s.cache.heapNext)
    (hr : ∀ pino, r = .remove pino n → s.cache.lookup pino ≠ some p) (hm : Inv m) (hg : Grow s.cache m)
    (h : MarkedDir p n d m) (he : r.Edits opt (s3Stor c) s e m) (hl : e.Leads m m') : MarkedDir p n d m' := by
  cases r with
  | find pino name => exact markedDir_lookup hs hm h he hl
  | create pino name mode =>
    cases he with
    | lookup he => exact markedDir_lookup hs hm h he hl
    | entry hq hnone =>
      obtain ⟨-, -, rfl⟩ := hl
      exact h.link hm (hs.indexed _ _ hq).1 hnone
  | remove pino name =>
    cases he with
    | lookup he => exact markedDir_lookup hs hm h he hl
    | @entry m q hq =>
      obtain rfl := hl
      have hother : ¬ (q = p ∧ name = n) := by
        rintro ⟨rfl, rfl⟩
        -- The directory has had its number since before the request.
        have hino : (s.cache.heap q).inode.ino = pino := (hg.ino q hp).symm.trans (hm.indexed _ _ hq).2
        exact hr pino rfl (hino ▸ hs.index q hp)
      refine ⟨h.alloc, ⟨?_, ?_⟩, ?_⟩
      · by_cases hpq : p = q
        · subst hpq
          exact getChild_erase.mpr ⟨fun hn => hother ⟨rfl, hn.symm⟩, h.kept.1⟩
        · rw [heap_set_ne hpq]
          exact h.kept.1
      · rw [heap_set]
        split
        · rename_i hdq
          exact hdq ▸ h.kept.2
        · exact h.kept.2
      · rw [heap_set]
        split
        · rename_i hdq
          exact hdq ▸ h.isDir
        · exact h.isDir
  | load ino =>
    cases he with
    | mark hq =>
      obtain ⟨-, -, -, rfl⟩ := hl
      exact h.set (fun _ => rfl) (fun _ _ => rfl) fun had => had ▸ h.isDir
    | update hq hnode hch =>
      obtain ⟨-, -, -, rfl⟩ := hl
      exact h.set (fun _ => rfl) (fun _ _ => rfl) fun had => had ▸ h.isDir
    | entry hq hstale hnode hnone =>
      obtain ⟨-, -, rfl⟩ := hl
      exact h.link hm (hm.indexed _ _ hq).1 hnone
    | marked hq hch =>
      obtain ⟨-, -, -, rfl⟩ := hl
      exact h.set (fun _ => rfl) (fun _ _ => rfl) fun had => had ▸ h.isDir
    | sweep hq => exact h.sweep hm hl.1 hl.2
  | updateSize ino size =>
    cases he with
    | update ha =>
      obtain ⟨-, -, -, rfl⟩ := hl
      exact h.set (fun _ => rfl) (fun _ hsync => hsync) fun had => had ▸ h.isDir

theorem markedDir_requests (hs : CacheInv s) (h : MarkedDir p n d s.cache)
    (hrun : Requests opt (s3Stor c) (fun r s => ∀ pino, r = .remove pino n → s.cache.lookup pino ≠ some p) s s') :
    CacheInv s' ∧ MarkedDir p n d s'.cache :=
  (hrun.keeps hs h fun _ _ hs₁ hr hk _ _ _ hm hrest hk' he hl =>
    markedDir_edit hs₁ hk.alloc hr hm (hrest.grow hs₁).2 hk' he hl).imp id And.right

/-- A directory that carries a mark once stays the entry of its name, whatever other requests are made, whichever store
    calls fail and whatever becomes of the bucket, until a request removes it: no lookup of the name misses it, and every
    listing of its parent has it. -/
theorem listed_dir_stays (hs : CacheInv s) (h : MarkedDir p n d s.cache)
    (hrun : Requests opt (s3Stor c) (fun r s => ∀ pino, r = .remove pino n → s.cache.lookup pino ≠ some p) s s')
    {pino : InodeID} (hp : s'.cache.lookup pino = some p) :
    (∀ x s'', (findDentry opt (s3Stor c) pino n false).run s' = .ok x s'' → x = some d) ∧
      ∀ fuel ds s'', (loadSubDentries (s3Stor c) fuel pino).run s' = .ok ds s'' → ⟨n, d⟩ ∈ ds := by
  obtain ⟨hs', hdir⟩ := markedDir_requests hs h hrun
  refine ⟨fun x s'' hfind => ?_, fun fuel ds s'' hload => ?_⟩
  · have hlookup : (cache (.find pino n) fun _ => LocalMemMeta.findDentry pino n : MetaM σ _).run s' = .ok (some d) s' :=
      run_cache_ok ((LocalMemMeta.run_findDentry hp).trans (by rw [hdir.kept.1]))
    rw [findDentry, Prog.run_bind_ok hlookup] at hfind
    have hreturns : ((do
        let expired ← isExpired d
        if expired = true then revalidate opt (s3Stor c) d else pure (some d)) : MetaM σ _).Returns (· = some d) := by
      refine Prog.Returns.bind fun expired => ?_
      split
      · exact returns_revalidate
      · exact Prog.returns_pure rfl
    exact hreturns.run hfind
  · obtain ⟨a, ha, rfl⟩ := load_lists hload
    obtain rfl := Option.some.inj (hp.symm.trans ha)
    have hmap : ((Request.load pino).prog opt (s3Stor c) fuel).run s' = .ok () s'' := Prog.run_map_ok hload
    have hafter : Requests opt (s3Stor c) (fun r s => ∀ pino, r = .remove pino n → s.cache.lookup pino ≠ some p) s s'' := by
      have hlast := hrun.request fuel (.load pino) (by simp)
      rwa [hmap] at hlast
    obtain ⟨hs'', hdir'⟩ := markedDir_requests hs h hafter
    refine List.mem_append_right _ (List.mem_map.mpr ⟨⟨n, d⟩, AList.mem_lookup_iff.mp hdir'.kept.1, ?_⟩)
    rw [(Inv.child hs'' p n d hdir'.alloc hdir'.kept.1).2.2.1]

/-- The root was listed again after another client had deleted everything. -/
def dirGone : World Log :=
  endState (((Request.load ROOT_INODE_ID).prog ⟨0, 0, 60⟩ (s3Stor Log.client) 1).run ⟨listedOnce, noKey, ⟨61, 0⟩, noGarbage⟩)

theorem reachable_listedOnce : Reachable ⟨0, 0, 60⟩ listedOnce := .request (.new ⟨0, 0⟩) _ _ _ _ _ _

theorem markedDir_listedOnce : MarkedDir 0 ['d'] 1 listedOnce :=
  ⟨by decide +kernel, ⟨by decide +kernel, by decide +kernel⟩, by decide +kernel⟩

theorem listed_dir_stays_gone :
    (∀ x s'', (findDentry ⟨0, 0, 60⟩ (s3Stor Log.client) ROOT_INODE_ID ['d'] false).run dirGone = .ok x s'' → x = some 1) ∧
      ∀ fuel ds s'', (loadSubDentries (s3Stor Log.client) fuel ROOT_INODE_ID).run dirGone = .ok ds s'' → ⟨['d'], 1⟩ ∈ ds := by
  have hs : CacheInv (⟨listedOnce, oneKey, ⟨0, 0⟩, noGarbage⟩ : World Log) := reachable_listedOnce.inv
  have hroot : dirGone.cache.lookup ROOT_INODE_ID = some 0 := by decide +kernel
  exact listed_dir_stays hs markedDir_listedOnce (.request (.outside .start noKey ⟨61, 0⟩ noGarbage) 1 (.load ROOT_INODE_ID) (by simp)) hroot

/-! ### One refresh -/

variable {view : σ → Bucket} {b : Bucket} {a : Addr} {ino : InodeID} {pre marker : Str} {contents contents' : List S3Object}
  {commonPrefixes commonPrefixes' : List Str} {nodes : List FTreeNode} {t : σ} {now : Timespec} {garbage : Garbage} {fuel k : Nat}

/-- A loop over the pages that came to its end merged the rest of the listing. -/
theorem refreshLoop_ok (hc : c.Serves view) (hm : Inv m) (ha : m.lookup ino = some a) (hv : view t = b)
    (hrest : Remaining c view b pre marker contents commonPrefixes)
    (hrun : (refreshLoop (s3Stor c) ino pre fuel marker).run ⟨m, t, now, garbage⟩ = .ok () s') :
    ∃ contents' commonPrefixes' nodes, b.Listing pre (contents ++ contents') (commonPrefixes ++ commonPrefixes') ∧
      NodesFor pre contents' commonPrefixes' nodes ∧ Built a nodes m s'.cache ∧ view s'.stor = b := by
  induction fuel generalizing m t marker contents commonPrefixes with
  | zero => cases hrun
  | succ fuel ih =>
    obtain ⟨r, t₁, hr, hv₁, hunder⟩ := page_served hc t pre marker
    obtain ⟨nodes, m₁, -, hn, hb, hturn⟩ := run_page hm ha hr hunder now garbage fuel
    rw [hturn] at hrun
    cases ht : r.isTruncated with
    | false =>
      rw [ht] at hrun
      obtain ⟨-, rfl⟩ := Result.ok.inj hrun
      exact ⟨r.contents, r.commonPrefixes, nodes, hrest.last hv hr ht, hn, hb, hv₁.trans hv⟩
    | true =>
      rw [ht] at hrun
      obtain ⟨contents', commonPrefixes', nodes', hl, hn', hb', hv'⟩ := ih hb.inv (hb.grow.index _ _ ha) (hv₁.trans hv)
        (hrest.more hv (hv₁.trans hv) hr ht) hrun
      rw [List.append_assoc, List.append_assoc] at hl
      exact ⟨r.contents ++ contents', r.commonPrefixes ++ commonPrefixes', nodes ++ nodes', hl, hn.append hn', hb.trans hb', hv'⟩

/-- From `m` to `m'` the directory `a` was refreshed over the bucket `b`, and no child removed. -/
structure Refresh (b : Bucket) (a : Addr) (m m' : LocalMemMeta) : Prop where
  inv : Inv m'
  grow : Grow m m'
  marks : MarksDirs a m'
  listed : ∀ n, b.Yields (m.dirPrefix a) n → ∃ ch, (m'.heap a).getChild n = some ch
  stays : ∀ n ch, (m.heap a).getChild n = some ch → (m'.heap a).getChild n = some ch
  origin : ∀ n ch, n ≠ [] → (m'.heap a).getChild n = some ch → b.Yields (m.dirPrefix a) n ∨ m.KeptChild a n ch
  kind : ∀ ch, ch < m.heapNext → (m'.heap ch).isDir = (m.heap ch).isDir

theorem refresh_ok (hc : c.Serves view) (hm : Inv m) (ha : a < m.heapNext) (hv : view t = b)
    (hlives : Survives (refreshSubDentries (s3Stor c) fuel a) ⟨m, t, now, garbage⟩)
    (hrun : (refreshSubDentries (s3Stor c) fuel a).run ⟨m, t, now, garbage⟩ = .ok () s') :
    Refresh b a m s'.cache ∧ view s'.stor = b := by
  rw [refreshSubDentries, Prog.run_bind_ok (run_pathWithSlash hm ha), Prog.run_bind_ok run_readDentry] at hrun
  rw [Prog.run_bind] at hrun
  obtain ⟨_, s₁, hloop, hsweep⟩ := of_bind_ok hrun
  have hspared := (survives_refresh (run_pathWithSlash hm ha) hloop).mp hlives
  obtain ⟨contents, commonPrefixes, nodes, hl, hn, hb, hv₁⟩ := refreshLoop_ok hc hm (hm.index a ha) hv
    (remaining_start hc) hloop
  have hsweep' : clearUnsyncDentry s₁.now a s₁.cache = .ok () s'.cache ∧ s'.stor = s₁.stor := by
    obtain ⟨m', hrun', -⟩ := run_clearUnsyncDentry s₁.now hb.inv (Nat.lt_of_lt_of_le ha hb.grow.next)
    have hcache : (cache (.sweep a) fun now => clearUnsyncDentry now a : MetaM σ _).run s₁ = .ok () { s₁ with cache := m' } :=
      run_cache_ok hrun'
    obtain ⟨-, rfl⟩ := Result.ok.inj (hcache.symm.trans hsweep)
    exact ⟨hrun', rfl⟩
  obtain ⟨hswept, hmarks⟩ := marksDirs_sweep hb.inv (Nat.lt_of_lt_of_le ha hb.grow.next) hsweep'.1
  refine ⟨⟨hswept.inv, hb.grow.trans hswept.grow, hmarks, fun n hy => ?_, fun n ch hch => ?_, fun n ch hne hch => ?_, fun ch hch => ?_⟩,
    hsweep'.2 ▸ hv₁⟩
  · obtain ⟨node, hnode, rfl⟩ := hn.of_yields hl hy
    exact (listed_refreshed hb hswept hnode).imp fun ch h => h.1
  · have hbuilt := hb.child n ch hch
    exact (hswept.child a .start n ch).mpr ⟨hbuilt, hspared a n ch .start hbuilt⟩
  · refine (child_refreshed hm hb hswept hch).imp ?_ id
    rintro ⟨node, hnode, rfl⟩
    exact hn.yields hl hnode hne
  · rw [Dentry.isDir, hswept.inode, (hb.same ch hch).1]
    rfl

/-! ### One refresh after the other -/

/-- `k` refreshes of `a` were made, all of which succeeded and let the process live, while the bucket was `b`. Between them
    the clock moves and the service changes in other ways. -/
inductive Refreshes (c : S3Client σ) (view : σ → Bucket) (b : Bucket) (a : Addr) (s : World σ) : Nat → World σ → Prop where
  | start : Refreshes c view b a s 0 s
  | refresh {k : Nat} {s₁ s' : World σ} {t : σ} {now : Timespec} {garbage : Garbage} {fuel : Nat}
      (h : Refreshes c view b a s k s₁) (hv : view t = b)
      (hlives : Survives (refreshSubDentries (s3Stor c) fuel a) { s₁ with stor := t, now, garbage })
      (hrun : (refreshSubDentries (s3Stor c) fuel a).run { s₁ with stor := t, now, garbage } = .ok () s') :
      Refreshes c view b a s (k + 1) s'

theorem Refresh.marked (hm : Inv m) (h : Refresh b a m m') (hd : MarkedDir a n d m) : MarkedDir a n d m' := by
  have hchild := h.stays n d hd.kept.1
  have hdir : (m'.heap d).isDir = true := (h.kind d (hm.child a n d hd.alloc hd.kept.1).2.1).trans hd.isDir
  exact ⟨Nat.lt_of_lt_of_le hd.alloc h.grow.next, ⟨hchild, (h.marks n d hchild).mpr hdir⟩, hdir⟩

/-- The bucket yields the name in the directory `a`, or in `m` a marked directory had it. -/
def Remains (b : Bucket) (a : Addr) (m : LocalMemMeta) (n : Str) : Prop :=
  b.Yields (m.dirPrefix a) n ∨ ∃ d, MarkedDir a n d m

/-- What the refreshes from `m` on leave: the children and the names that remain are there, and no other name has a
    directory. -/
structure Settling (b : Bucket) (a : Addr) (m m' : LocalMemMeta) : Prop where
  inv : Inv m'
  grow : Grow m m'
  marks : MarksDirs a m'
  stays : ∀ n ch, (m.heap a).getChild n = some ch → (m'.heap a).getChild n = some ch
  listed : ∀ n, b.Yields (m.dirPrefix a) n → ∃ ch, (m'.heap a).getChild n = some ch
  marked : ∀ n d, MarkedDir a n d m → MarkedDir a n d m'
  dirs : ∀ n ch, n ≠ [] → (m'.heap a).getChild n = some ch → (m'.heap ch).isDir = true → Remains b a m n

section
variable {m₁ : LocalMemMeta} (hm : Inv m) (ha : a < m.heapNext)
include hm ha

theorem Settling.first (h : Refresh b a m m') : Settling b a m m' where
  inv := h.inv
  grow := h.grow
  marks := h.marks
  stays := h.stays
  listed := h.listed
  marked _ _ hd := h.marked hm hd
  dirs n ch hne hch hdir := by
    refine (h.origin n ch hne hch).imp id fun hkept => ⟨ch, ha, hkept, ?_⟩
    rw [← h.kind ch (hm.child a n ch ha hkept.1).2.1]
    exact hdir

/-- The step lemma: from the second refresh on, the names that remain are all. -/
theorem Settling.refresh (hs : Settling b a m m₁) (h : Refresh b a m₁ m') :
    Settling b a m m' ∧ ∀ n ch, n ≠ [] → (m'.heap a).getChild n = some ch → Remains b a m n := by
  have hpre : m₁.dirPrefix a = m.dirPrefix a := dirPrefix_grow hm hs.grow ha
  have hall : ∀ n ch, n ≠ [] → (m'.heap a).getChild n = some ch → Remains b a m n := by
    intro n ch hne hch
    rcases h.origin n ch hne hch with hyields | hkept
    · exact .inl (hpre ▸ hyields)
    · exact hs.dirs n ch hne hkept.1 ((hs.marks n ch hkept.1).mp hkept.2)
  exact ⟨⟨h.inv, hs.grow.trans h.grow, h.marks, fun n ch hch => h.stays n ch (hs.stays n ch hch), fun n hn => h.listed n (hpre.symm ▸ hn),
    fun n d hd => h.marked hs.inv (hs.marked n d hd), fun n ch hne hch _ => hall n ch hne hch⟩, hall⟩

end

/-- The run lemma: from the first refresh on, and from the second. -/
theorem refreshes_settling (hc : c.Serves view) (hs : CacheInv s) (ha : a < s.cache.heapNext)
    (h : Refreshes c view b a s k s') : (k = 0 → s'.cache = s.cache) ∧ (1 ≤ k → Settling b a s.cache s'.cache) ∧
      (2 ≤ k → ∀ n ch, n ≠ [] → (s'.cache.heap a).getChild n = some ch → Remains b a s.cache n) := by
  induction h with
  | start => exact ⟨fun _ => rfl, fun hk => absurd hk (by decide), fun hk => absurd hk (by decide)⟩
  | @refresh k s₁ s' t now garbage fuel _ hv hlives hrun ih =>
    obtain ⟨hzero, hone, -⟩ := ih
    refine ⟨fun hk => absurd hk (Nat.succ_ne_zero k), ?_⟩
    rcases Nat.eq_zero_or_pos k with rfl | hpos
    · have hcache : s₁.cache = s.cache := hzero rfl
      rw [hcache] at hlives hrun
      exact ⟨fun _ => .first hs ha (refresh_ok hc hs ha hv hlives hrun).1, fun hk => absurd hk (by decide)⟩
    · have hsettling := hone hpos
      have hrefresh := (refresh_ok hc hsettling.inv (Nat.lt_of_lt_of_le ha hsettling.grow.next) hv hlives hrun).1
      obtain ⟨hnext, hall⟩ := hsettling.refresh hs ha hrefresh
      exact ⟨fun _ => hnext, fun _ => hall⟩

/-- After two refreshes over one bucket that the process survived, and after each one that follows, the names of the children
    of a directory are what the bucket yields there, and those of the directories that carried a mark before. Every earlier
    child is still there, so a process with any other one does not survive the second refresh. -/
theorem refreshes_settle (hc : c.Serves view) (hs : CacheInv s) (ha : a < s.cache.heapNext)
    (h : Refreshes c view b a s k s') (hk : 2 ≤ k) :
    (∀ n, n ≠ [] → ((∃ ch, (s'.cache.heap a).getChild n = some ch) ↔
      b.Yields (s.cache.dirPrefix a) n ∨ ∃ d, MarkedDir a n d s.cache)) ∧
    ∀ n ch, (s.cache.heap a).getChild n = some ch → (s'.cache.heap a).getChild n = some ch := by
  obtain ⟨-, hone, htwo⟩ := refreshes_settling hc hs ha h
  have hsettling := hone (Nat.le_of_succ_le hk)
  refine ⟨fun n hn => ⟨?_, ?_⟩, hsettling.stays⟩
  · rintro ⟨ch, hch⟩
    exact htwo hk n ch hn hch
  · rintro (hyields | ⟨d, hd⟩)
    · exact hsettling.listed n hyields
    · exact ⟨d, (hsettling.marked n d hd).kept.1⟩

/-- The root is listed again after other clients have put the file `f` in the place of everything else. -/
def refreshedOnce : World Log :=
  endState ((refreshSubDentries (s3Stor Log.client) 1 0).run ⟨listedOnce, Log.holding ['f'], ⟨61, 0⟩, noGarbage⟩)

def refreshedTwice : World Log :=
  endState ((refreshSubDentries (s3Stor Log.client) 1 0).run ⟨refreshedOnce.cache, Log.holding ['f'], ⟨122, 0⟩, noGarbage⟩)

/-- The directory `d` is gone from the bucket. -/
theorem refreshes_settle_gone :
    Refreshes Log.client Log.bucket (Log.holding ['f']).bucket 0 ⟨listedOnce, oneKey, ⟨0, 0⟩, noGarbage⟩ 2 refreshedTwice ∧
    (∀ n, n ≠ [] → ((∃ ch, (refreshedTwice.cache.heap 0).getChild n = some ch) ↔
      (Log.holding ['f']).bucket.Yields (listedOnce.dirPrefix 0) n ∨ ∃ d, MarkedDir 0 n d listedOnce)) ∧
    ∀ n ch, (listedOnce.heap 0).getChild n = some ch → (refreshedTwice.cache.heap 0).getChild n = some ch := by
  have hfirst := survives_of_within 1 (s := ⟨listedOnce, Log.holding ['f'], ⟨61, 0⟩, noGarbage⟩)
    (p := refreshSubDentries (s3Stor Log.client) 1 0) (by decide +kernel)
  have hsecond := survives_of_within 1 (s := ⟨refreshedOnce.cache, Log.holding ['f'], ⟨122, 0⟩, noGarbage⟩)
    (p := refreshSubDentries (s3Stor Log.client) 1 0) (by decide +kernel)
  have hruns : Refreshes Log.client Log.bucket (Log.holding ['f']).bucket 0 ⟨listedOnce, oneKey, ⟨0, 0⟩, noGarbage⟩ 2 refreshedTwice :=
    .refresh (.refresh .start rfl hfirst (unit_of_returned (by decide +kernel))) rfl hsecond (unit_of_returned (by decide +kernel))
  have halloc : 0 < listedOnce.heapNext := by decide +kernel
  exact ⟨hruns, refreshes_settle (s := ⟨listedOnce, oneKey, ⟨0, 0⟩, noGarbage⟩) Log.client_serves reachable_listedOnce.inv halloc
    hruns (Nat.le_refl 2)⟩

end MetaImpl

end Catfs
