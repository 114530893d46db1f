import Catfs.Lib.Pool
import Catfs.Theorems.CompleteDirs
import Mathlib.Data.Fintype.Defs

/-! # Listings of one directory that run at the same time

Any number of `load_sub_dentries` calls on one directory over a bucket that stays as it is. A call's names stay
marked until its own sweep unless another call's sweep resets them, which it does to files. -/

namespace Catfs

open Lib MetaM LocalMemMeta
open EStateM (Result)

namespace MetaImpl

variable {ι σ α : Type} {c : S3Client σ}

abbrev MetaConf (ι σ : Type) := Conf ι MetaAct (World σ)

/-! ### What the record says of a call -/

/-- The names that the call `i` has merged so far. -/
def builtBy [DecidableEq ι] (i : ι) (past : List (ι × MetaAct × World σ)) : List Str :=
  past.flatMap fun e => if e.1 = i then (match e.2.1 with | .build _ names => names | _ => []) else []

def isSweep (l : MetaAct) : Bool := match l with | .sweep _ => true | _ => false

/-- The call `i` has made its sweep. -/
def SweptBy (i : ι) (past : List (ι × MetaAct × World σ)) : Prop := ∃ e ∈ past, e.1 = i ∧ isSweep e.2.1 = true

/-- A sweep of a directory waits until no other call has merged a file into it that its own sweep still has to
    find marked. -/
def NoFileWaits [DecidableEq ι] (i : ι) (l : MetaAct) (x : MetaConf ι σ) : Prop :=
  match l with
  | .sweep D => ∀ j, j ≠ i → ¬ SweptBy j x.past → ∀ n ∈ builtBy j x.past, n ≠ [] →
    ∃ ch ∈ (x.state.cache.heap D).getChild n, (x.state.cache.heap ch).isDir = true
  | _ => True

instance [DecidableEq ι] (i : ι) (past : List (ι × MetaAct × World σ)) : Decidable (SweptBy i past) :=
  inferInstanceAs (Decidable (∃ e ∈ past, e.1 = i ∧ isSweep e.2.1 = true))

instance [DecidableEq ι] [Fintype ι] (i : ι) (l : MetaAct) (x : MetaConf ι σ) : Decidable (NoFileWaits i l x) :=
  match l with
  | .sweep D => inferInstanceAs (Decidable (∀ j, j ≠ i → ¬ SweptBy j x.past → ∀ n ∈ builtBy j x.past, n ≠ [] →
      ∃ ch ∈ (x.state.cache.heap D).getChild n, (x.state.cache.heap ch).isDir = true))
  | .find .. | .read _ | .check _ | .getDentry _ | .head _ | .list .. | .put _ | .delete _ | .insert .. | .erase ..
  | .touch _ | .update .. | .build .. => .isTrue trivial

theorem isSweep_of_quiet {l : MetaAct} (h : l.quiet = true) : isSweep l = false := by
  cases l <;> first | rfl | cases h

section Record
variable {i j : ι} {l : MetaAct} {x : MetaConf ι σ} {s : World σ}

theorem sweptBy_other (h : j ≠ i) : SweptBy j (x.after i l s).past ↔ SweptBy j x.past := by
  simp [SweptBy, Conf.after, or_and_right, exists_or, Ne.symm h]

theorem sweptBy_quiet (h : isSweep l = false) : SweptBy j (x.after i l s).past ↔ SweptBy j x.past := by
  simp [SweptBy, Conf.after, or_and_right, exists_or, h]

variable [DecidableEq ι]

theorem builtBy_other (h : j ≠ i) : builtBy j (x.after i l s).past = builtBy j x.past := by
  simp [builtBy, Conf.after, List.flatMap_append, Ne.symm h]

theorem builtBy_build {ino : InodeID} {names : List Str} :
    builtBy i (x.after i (.build ino names) s).past = builtBy i x.past ++ names := by
  simp [builtBy, Conf.after, List.flatMap_append]

theorem builtBy_quiet (h : l.quiet = true) : builtBy j (x.after i l s).past = builtBy j x.past := by
  have hn : (match l with | .build _ names => names | _ => ([] : List Str)) = [] := by
    cases l <;> first | rfl | cases h
  simp only [builtBy, Conf.after, List.flatMap_append, List.flatMap_cons, List.flatMap_nil, List.append_nil, hn, ite_self]

end Record

/-! ### What holds all the time -/

/-- The directory `a` with the number `ino`, the prefix `pre` and the bucket `b` that the calls list. -/
structure Listed (σ : Type) where
  view : σ → Bucket
  b : Bucket
  a : Addr
  ino : InodeID
  pre : Str

namespace Listed
variable (L : Listed σ)

/-- Every name of the bucket is a child. -/
def Full (m : LocalMemMeta) : Prop := ∀ n, L.b.Yields L.pre n → ∃ ch, (m.heap L.a).getChild n = some ch

/-- A call that looks at `a` now answers from the cache. -/
def FromCache (s : World σ) : Prop := (s.cache.heap L.a).complete = true ∧ (s.cache.heap L.a).isExpired s.now = false

structure Base (x : MetaConf ι σ) : Prop where
  inv : Inv x.state.cache
  index : x.state.cache.lookup L.ino = some L.a
  pre : x.state.cache.dirPrefix L.a = L.pre
  view : L.view x.state.stor = L.b
  full : L.FromCache x.state → L.Full x.state.cache

theorem Base.keep {L : Listed σ} {i : ι} {l : MetaAct} {x : MetaConf ι σ} {s : World σ} (hx : L.Base x) (hc : s.cache = x.state.cache)
    (hn : s.now = x.state.now) (hv : L.view s.stor = L.view x.state.stor) : L.Base (x.after i l s) := by
  refine ⟨hc ▸ hx.inv, hc ▸ hx.index, hc ▸ hx.pre, hv.trans hx.view, fun h => ?_⟩
  have h' : L.FromCache s := h
  rw [FromCache, hc, hn] at h'
  exact hc ▸ hx.full h'

variable [DecidableEq ι]

/-- What the call `i` merged waits, marked, for its sweep. -/
def Marked (i : ι) (x : MetaConf ι σ) : Prop := ¬ SweptBy i x.past → ∀ n ∈ builtBy i x.past, n ≠ [] →
  ∃ ch, (x.state.cache.heap L.a).getChild n = some ch ∧ (x.state.cache.heap ch).synced = true

/-- The call `i` has not made its sweep, and has merged what these pages list. -/
structure Own (i : ι) (contents : List S3Object) (commonPrefixes : List Str) (x : MetaConf ι σ) : Prop where
  base : L.Base x
  marked : L.Marked i x
  notSwept : ¬ SweptBy i x.past
  built : ∀ n, n ≠ [] → ((∃ o ∈ contents, o.key = L.pre ++ n) ∨ L.pre ++ n ++ slash ∈ commonPrefixes) →
    n ∈ builtBy i x.past

/-- What the call `i` relies on. -/
structure Rely (i : ι) (x y : MetaConf ι σ) : Prop where
  base : L.Base x → L.Base y
  full : L.Base x → L.Full x.state.cache → L.Full y.state.cache
  marked : L.Base x → L.Marked i x → L.Marked i y
  built : builtBy i y.past = builtBy i x.past
  swept : SweptBy i y.past ↔ SweptBy i x.past

variable {L} {i : ι} {contents : List S3Object} {commonPrefixes : List Str}

theorem stable_full : Stable (L.Rely i) fun x => L.Base x ∧ L.Full x.state.cache :=
  fun _ _ hr hx => ⟨hr.base hx.1, hr.full hx.1 hx.2⟩

theorem stable_own : Stable (L.Rely i) (L.Own i contents commonPrefixes) := fun _ _ hr hx =>
  ⟨hr.base hx.base, hr.marked hx.base hx.marked, fun h => hx.notSwept (hr.swept.mp h), fun n hn hl => by
    rw [hr.built]
    exact hx.built n hn hl⟩

theorem stable_fact {φ : Prop} {P : MetaConf ι σ → Prop} (h : Stable (L.Rely i) P) :
    Stable (L.Rely i) fun x => φ ∧ P x := fun x y hr hx => ⟨hx.1, h x y hr hx.2⟩

/-- A step of `i` keeps what the others rely on when it keeps the base and their marks. -/
theorem guarantees {l : MetaAct} {x : MetaConf ι σ} {s : World σ} (hb : L.Base (x.after i l s))
    (hf : L.Full x.state.cache → L.Full s.cache) (hm : ∀ j, j ≠ i → L.Marked j x → L.Marked j (x.after i l s)) :
    Prog.Guarantees L.Rely i x (x.after i l s) :=
  fun j hj => ⟨fun _ => hb, fun _ => hf, fun _ => hm j hj, builtBy_other hj, sweptBy_other hj⟩

/-! ### The steps -/

/-- A quiet step that leaves the cache and the bucket as they are. -/
theorem Base.keep_step {l : MetaAct} {x : MetaConf ι σ} {s : World σ} (hx : L.Base x) (hl : l.quiet = true)
    (hc : s.cache = x.state.cache) (hn : s.now = x.state.now) (hv : L.view s.stor = L.view x.state.stor) :
    (∀ j, L.Marked j x → L.Marked j (x.after i l s)) ∧ Prog.Guarantees L.Rely i x (x.after i l s) := by
  have hmarked : ∀ j, L.Marked j x → L.Marked j (x.after i l s) := by
    intro j hj hns n hn hne
    rw [sweptBy_quiet (isSweep_of_quiet hl)] at hns
    rw [builtBy_quiet hl] at hn
    have := hj hns n hn hne
    rwa [← hc] at this
  exact ⟨hmarked, guarantees (hx.keep hc hn hv) (hc ▸ id) fun j _ => hmarked j⟩

theorem Own.keep {l : MetaAct} {x : MetaConf ι σ} {s : World σ} (hx : L.Own i contents commonPrefixes x)
    (hl : l.quiet = true) (hc : s.cache = x.state.cache) (hn : s.now = x.state.now)
    (hv : L.view s.stor = L.view x.state.stor) :
    L.Own i contents commonPrefixes (x.after i l s) ∧ Prog.Guarantees L.Rely i x (x.after i l s) := by
  obtain ⟨hmarked, hguar⟩ := hx.base.keep_step (i := i) hl hc hn hv
  refine ⟨⟨hx.base.keep hc hn hv, hmarked i hx.marked, ?_, fun n hn hlist => ?_⟩, hguar⟩
  · rw [sweptBy_quiet (isSweep_of_quiet hl)]
    exact hx.notSwept
  · rw [builtBy_quiet hl]
    exact hx.built n hn hlist

/-- A merge of a page. -/
theorem Own.build {x : MetaConf ι σ} {m' : LocalMemMeta} {ino : InodeID} {nodes : List FTreeNode}
    {contents' : List S3Object} {commonPrefixes' : List Str} (hx : L.Own i contents commonPrefixes x)
    (hb : Built L.a nodes x.state.cache m') (hn : NodesFor L.pre contents' commonPrefixes' nodes) :
    let y := x.after i (.build ino (nodes.map FTreeNode.name)) { x.state with cache := m' }
    L.Own i (contents ++ contents') (commonPrefixes ++ commonPrefixes') y ∧ Prog.Guarantees L.Rely i x y := by
  intro y
  have hl : isSweep (.build ino (nodes.map FTreeNode.name)) = false := rfl
  have hfull : L.Full x.state.cache → L.Full m' := fun h n hy => (h n hy).imp (hb.child n)
  have hbase : L.Base y := by
    refine ⟨hb.inv, hb.grow.index _ _ hx.base.index, ?_, hx.base.view, fun h => ?_⟩
    · exact (dirPrefix_grow hx.base.inv hb.grow hb.alloc).trans hx.base.pre
    · obtain ⟨-, hcomplete, httl⟩ := hb.same L.a hb.alloc
      obtain ⟨hc, he⟩ := h
      have he' : (m'.heap L.a).isExpired x.state.now = false := he
      rw [Dentry.isExpired, httl] at he'
      exact hfull (hx.base.full ⟨hcomplete.symm.trans hc, he'⟩)
  have hkeep : ∀ n ch, (x.state.cache.heap L.a).getChild n = some ch ∧ (x.state.cache.heap ch).synced = true →
      (m'.heap L.a).getChild n = some ch ∧ (m'.heap ch).synced = true := fun n ch ⟨hch, hs⟩ =>
    ⟨hb.child n ch hch, hb.mark ch (hx.base.inv.child L.a n ch hb.alloc hch).2.1 hs⟩
  have hmarked : ∀ j, j ≠ i → L.Marked j x → L.Marked j y := by
    intro j hj hm hns n hn hne
    rw [sweptBy_quiet hl] at hns
    rw [builtBy_other hj] at hn
    exact (hm hns n hn hne).imp (hkeep n)
  refine ⟨⟨hbase, fun hns n hn' hne => ?_, ?_, fun n hne hlist => ?_⟩, guarantees hbase hfull hmarked⟩
  · rw [sweptBy_quiet hl] at hns
    rw [builtBy_build] at hn'
    rcases List.mem_append.mp hn' with hold | hnew
    · exact (hx.marked hns n hold hne).imp (hkeep n)
    · obtain ⟨node, hnode, rfl⟩ := List.mem_map.mp hnew
      exact hb.listed node hnode
  · rw [sweptBy_quiet hl]
    exact hx.notSwept
  · rw [builtBy_build]
    have hnew : ∀ node ∈ nodes, node.name = n → n ∈ builtBy i x.past ++ nodes.map FTreeNode.name := fun node hnode he =>
      List.mem_append_right _ (List.mem_map.mpr ⟨node, hnode, he⟩)
    rcases hlist with ⟨o, ho, hk⟩ | hp
    · rcases List.mem_append.mp ho with ho | ho
      · exact List.mem_append_left _ (hx.built n hne (.inl ⟨o, ho, hk⟩))
      · obtain ⟨node, hnode, he⟩ := hn.files o ho
        exact hnew node hnode (List.append_cancel_left (he.symm.trans hk))
    · rcases List.mem_append.mp hp with hp | hp
      · exact List.mem_append_left _ (hx.built n hne (.inr hp))
      · obtain ⟨node, hnode, he⟩ := hn.dirs n hne hp
        exact hnew node hnode he

/-- The sweep, after the whole listing was merged. -/
theorem Own.sweep {x : MetaConf ι σ} {m' : LocalMemMeta} (hx : L.Own i contents commonPrefixes x)
    (hl : L.b.Listing L.pre contents commonPrefixes) (hs : Swept L.a x.state.cache m') (hg : NoFileWaits i (.sweep L.a) x) :
    let y := x.after i (.sweep L.a) { x.state with cache := m' }
    (L.Base y ∧ L.Full m') ∧ Prog.Guarantees L.Rely i x y := by
  intro y
  have halloc := (hx.base.inv.indexed _ _ hx.base.index).1
  have hfull : L.Full m' := by
    intro n hy
    obtain ⟨hne, hlist⟩ := hl.yields_iff.mp hy
    obtain ⟨ch, hch, hsync⟩ := hx.marked hx.notSwept n (hx.built n hne (hlist.imp id And.right)) hne
    exact ⟨ch, (hs.child L.a .start n ch).mpr ⟨hch, hsync⟩⟩
  have hpre : m'.dirPrefix L.a = L.pre := (dirPrefix_grow hx.base.inv hs.grow halloc).trans hx.base.pre
  have hbase : L.Base y := ⟨hs.inv, hs.grow.index _ _ hx.base.index, hpre, hx.base.view, fun _ => hfull⟩
  refine ⟨⟨hbase, hfull⟩, guarantees hbase (fun _ => hfull) fun j hj hm hns n hn hne => ?_⟩
  rw [sweptBy_other hj] at hns
  rw [builtBy_other hj] at hn
  obtain ⟨ch, hch, hsync⟩ := hm hns n hn hne
  -- What waits for another sweep is a directory, whose mark the sweep sets again.
  obtain ⟨ch', hch', hdir⟩ := hg j hj hns n hn hne
  obtain rfl : ch' = ch := Option.some.inj (hch'.symm.trans hch)
  exact ⟨ch', (hs.child L.a .start n ch').mpr ⟨hch, hsync⟩, hs.synced ch' (.down .start ⟨hch, hsync⟩ hdir)⟩

/-! ### The program of a call -/

theorem sat_read {l : MetaAct} {f : EStateM Err (World σ) α} {R : α → Prop} (hl : l.quiet = true)
    (hf : ∀ x : MetaConf ι σ, L.Base x → ∃ r, f x.state = .ok r x.state ∧ R r) :
    (Prog.lift l f).Sat NoFileWaits L.Rely i (L.Own i contents commonPrefixes)
      fun r x => R r ∧ L.Own i contents commonPrefixes x := by
  refine Prog.sat_lift (fun _ => stable_fact stable_own) fun x hx _ => ?_
  obtain ⟨r, hr, hR⟩ := hf x hx.base
  rw [hr]
  obtain ⟨hown, hguar⟩ := hx.keep hl rfl rfl rfl
  exact ⟨⟨hR, hown⟩, hguar⟩

theorem sat_list (hc : c.Serves L.view) (marker : Str) :
    (call (.list L.pre marker) ((s3Stor c).listObjects { delimiter := slash, pre := L.pre, max := 1000, marker }) :
      MetaM σ ListObjectsResp).Sat NoFileWaits L.Rely i (L.Own i contents commonPrefixes) fun resp x =>
        (∃ r t t', L.view t = L.b ∧ L.view t' = L.b ∧ c.listObjects (pageRequest L.pre marker) t = .ok r t' ∧
          Under L.pre r ∧ resp = pageResp (c.garbage t) r) ∧ L.Own i contents commonPrefixes x := by
  refine Prog.sat_lift (fun _ => stable_fact stable_own) fun x hx _ => ?_
  obtain ⟨r, t', hr, hv, hunder⟩ := page_served hc x.state.stor L.pre marker
  rw [zoom_ok (run_listObjects hr)]
  obtain ⟨hown, hguar⟩ := hx.keep (l := .list L.pre marker) (s := { x.state with stor := t' })
    rfl rfl rfl hv
  exact ⟨⟨⟨r, _, t', hx.base.view, hv.trans hx.base.view, hr, hunder, rfl⟩, hown⟩, hguar⟩

theorem sat_build {ino : InodeID} (hino : ino = L.ino) {nodes : List FTreeNode} {contents' : List S3Object}
    {commonPrefixes' : List Str} (hn : NodesFor L.pre contents' commonPrefixes' nodes) :
    (cache (.build ino (nodes.map FTreeNode.name)) fun now => buildDentries now ino nodes : MetaM σ Unit).Sat
      NoFileWaits L.Rely i (L.Own i contents commonPrefixes)
      fun _ => L.Own i (contents ++ contents') (commonPrefixes ++ commonPrefixes') := by
  subst hino
  refine Prog.sat_lift (fun _ => stable_own) fun x hx _ => ?_
  obtain ⟨m', hrun, hb⟩ := run_buildDentries x.state.now hx.base.inv hx.base.index hn.flat
  simp only [onCache, zoom, hrun]
  exact hx.build hb hn

/-- The loop over the pages. -/
theorem sat_refreshLoop (hc : c.Serves L.view) (fuel : Nat) (marker : Str) (contents : List S3Object)
    (commonPrefixes : List Str) (hrest : Remaining c L.view L.b L.pre marker contents commonPrefixes) :
    (refreshLoop (s3Stor c) L.ino L.pre fuel marker).Sat NoFileWaits L.Rely i (L.Own i contents commonPrefixes)
      fun _ x => ∃ contents' commonPrefixes', L.b.Listing L.pre contents' commonPrefixes' ∧
        L.Own i contents' commonPrefixes' x := by
  induction fuel generalizing marker contents commonPrefixes with
  | zero => trivial
  | succ fuel ih =>
    refine (sat_list hc marker).bind fun resp => Prog.Sat.of_fact ?_
    rintro ⟨r, t, t₁, hv, hv₁, hr, hunder, rfl⟩
    obtain ⟨nodes, hft, hn⟩ := nodesFor_page hunder (c.garbage t)
    rw [hft]
    refine (sat_build rfl hn).bind fun _ => ?_
    cases ht : r.isTruncated with
    | true =>
      rw [if_pos (show (pageResp (c.garbage t) r).isTrunc = true from ht)]
      exact ih _ _ _ (hrest.more hv hv₁ hr ht)
    | false =>
      have hlast : ¬ (pageResp (c.garbage t) r).isTrunc = true := by
        rw [show (pageResp (c.garbage t) r).isTrunc = false from ht]
        exact Bool.false_ne_true
      rw [if_neg hlast]
      exact Prog.sat_pure fun x hx => ⟨_, _, hrest.last hv hr ht, hx⟩

theorem sat_refresh (hc : c.Serves L.view) (fuel : Nat) :
    (refreshSubDentries (s3Stor c) fuel L.a).Sat NoFileWaits L.Rely i (L.Own i [] [])
      fun _ x => L.Base x ∧ L.Full x.state.cache := by
  refine (sat_read (R := fun pre => pre = L.pre) rfl fun x hx => ?_).bind fun pre =>
    Prog.Sat.of_fact ?_
  · obtain ⟨halloc, -⟩ := hx.inv.indexed _ _ hx.index
    refine ⟨_, ?_, hx.pre⟩
    simp only [onCache, zoom, run_getFullPathWithSlash hx.inv halloc]
  rintro rfl
  refine (sat_read (R := fun d : Dentry => d.inode.ino = L.ino) rfl fun x hx => ?_).bind
    fun d => Prog.Sat.of_fact fun hino => ?_
  · exact ⟨_, rfl, (hx.inv.indexed _ _ hx.index).2⟩
  rw [hino]
  refine (sat_refreshLoop hc fuel [] [] [] (remaining_start hc)).bind fun _ => ?_
  refine Prog.sat_lift (fun _ => stable_full) ?_
  rintro x ⟨contents, commonPrefixes, hl, hx⟩ hg
  obtain ⟨m', hrun, hs⟩ := run_clearUnsyncDentry x.state.now hx.base.inv (hx.base.inv.indexed _ _ hx.base.index).1
  simp only [onCache, zoom, hrun]
  exact hx.sweep hl hs hg

theorem sat_needsRefresh : (needsRefresh L.a : MetaM σ Bool).Sat NoFileWaits L.Rely i (L.Own i [] [])
    fun r x => (r = false → L.Full x.state.cache) ∧ L.Own i [] [] x := by
  refine Prog.sat_lift (fun r => ?_) fun x hx _ => ?_
  · exact fun x y hr hx => ⟨fun hf => hr.full hx.2.base (hx.1 hf), stable_own x y hr hx.2⟩
  · obtain ⟨hown, hguar⟩ := hx.keep (l := .check L.a) rfl rfl rfl rfl
    refine ⟨⟨fun hr => hx.base.full ?_, hown⟩, hguar⟩
    simpa [FromCache] using hr

theorem sat_listChildren : (listChildren L.a : MetaM σ _).Sat NoFileWaits L.Rely i
    (fun x => L.Base x ∧ L.Full x.state.cache) fun _ x => L.Base x ∧ L.Full x.state.cache := by
  refine (Prog.sat_lift (fun _ => stable_full) fun x hx _ => ?_).bind fun _ => Prog.sat_pure fun x hx => hx
  exact ⟨⟨hx.1.keep rfl rfl rfl, hx.2⟩, (hx.1.keep_step rfl rfl rfl rfl).2⟩

theorem sat_load (hc : c.Serves L.view) (fuel : Nat) :
    (loadSubDentries (s3Stor c) fuel L.ino).Sat NoFileWaits L.Rely i (L.Own i [] []) fun _ x => L.Full x.state.cache := by
  refine (sat_read (R := fun d => d = some L.a) rfl fun x hx => ⟨_, rfl, hx.index⟩ :
    (getDentry L.ino : MetaM σ _).Sat NoFileWaits L.Rely i (L.Own i [] []) _).bind fun d => Prog.Sat.of_fact ?_
  rintro rfl
  refine sat_needsRefresh.bind fun r => ?_
  have hlist : (listChildren L.a : MetaM σ _).Sat NoFileWaits L.Rely i (fun x => L.Base x ∧ L.Full x.state.cache)
      fun _ x => L.Full x.state.cache := sat_listChildren.post fun _ _ hx => hx.2
  cases r with
  | true => exact ((sat_refresh hc fuel).bind fun _ => hlist).pre fun _ hx => hx.2
  | false => exact hlist.pre fun _ hx => ⟨hx.2.base, hx.1 rfl⟩

/-- At the start nothing is recorded. -/
theorem own_start {s : World σ} (hm : Inv s.cache) (ha : s.cache.lookup L.ino = some L.a)
    (hpre : s.cache.dirPrefix L.a = L.pre) (hv : L.view s.stor = L.b) (hf : L.FromCache s → L.Full s.cache) :
    L.Own i [] [] { past := [], state := s } where
  base := ⟨hm, ha, hpre, hv, hf⟩
  marked _ _ hn := absurd hn List.not_mem_nil
  notSwept := by
    rintro ⟨_, he, -⟩
    cases he
  built n _ h := by simp at h

end Listed

theorem Listed.rely_later [DecidableEq ι] {L : Listed σ} {i : ι} {x : MetaConf ι σ} {s' : World σ} (h : Later x.state s') :
    L.Rely i x { x with state := s' } where
  base hx := by
    have hc : s'.cache = x.state.cache := h.cache
    refine ⟨hc ▸ hx.inv, hc ▸ hx.index, hc ▸ hx.pre, ?_, fun ⟨hcomplete, hexp⟩ => ?_⟩
    · rw [h.stor]
      exact hx.view
    · rw [h.cache] at hcomplete hexp ⊢
      exact hx.full ⟨hcomplete, isExpired_later h hexp⟩
  full _ hf := by
    rw [h.cache]
    exact hf
  marked _ hm := by
    rw [Listed.Marked, h.cache]
    exact hm
  built := rfl
  swept := .rfl

/-! ### The calls together -/

section
variable [DecidableEq ι]

/-- Whatever the order in which the calls take their steps, once one of them has returned every name that the
    bucket yields is a child, as long as no sweep finds a file that another call merged and has yet to sweep. -/
theorem loads_complete {view : σ → Bucket} (hc : c.Serves view) {opt : MetaOpt} {m : LocalMemMeta} (hm : Reachable opt m)
    {ino : InodeID} {a : Addr} (ha : m.lookup ino = some a) (fuel : ι → Nat) (t : σ) (now : Timespec) (garbage : Garbage)
    (hfull : (m.heap a).complete = true ∧ (m.heap a).isExpired now = false →
      ∀ n, (view t).Yields (m.dirPrefix a) n → ∃ ch, (m.heap a).getChild n = some ch)
    {y : Pool ι MetaAct Err (World σ) (List Dirent)}
    (h : Pool.Runs NoFileWaits Later (.start (fun i => loadSubDentries (s3Stor c) (fuel i) ino) ⟨m, t, now, garbage⟩) y)
    {i : ι} {r : List Dirent} (hret : y.threads i = .ret r) :
    ∀ n, (view t).Yields (m.dirPrefix a) n → ∃ ch, (y.conf.state.cache.heap a).getChild n = some ch := by
  let L : Listed σ := { view, b := view t, a, ino, pre := m.dirPrefix a }
  have hgood : Pool.Good NoFileWaits L.Rely (fun _ _ x => L.Full x.state.cache)
      (Pool.start (fun i => loadSubDentries (s3Stor c) (fuel i) ino) ⟨m, t, now, garbage⟩) := fun i =>
    ⟨L.Own i [] [], Listed.stable_own, Listed.own_start hm.inv ha rfl rfl hfull, Listed.sat_load hc (fuel i)⟩
  exact Pool.sound (fun _ _ _ => Listed.rely_later) hgood h hret

end

/-! ### Two calls -/

/-- Two calls on the directory `ino`. -/
def twoLoads (ino : InodeID) (s : World Log) : Pool Bool MetaAct Err (World Log) (List Dirent) :=
  .start (fun _ => loadSubDentries (s3Stor Log.client) 1 ino) s

/-- Each call lists and merges before either sweeps. -/
def bothMergeFirst : List Bool :=
  List.replicate 6 false ++ List.replicate 6 true ++ List.replicate 2 false ++ List.replicate 2 true

/-- With a directory in the bucket, that order is safe. -/
theorem loads_complete_oneKey : ∃ y, Pool.Runs NoFileWaits Later (twoLoads ROOT_INODE_ID (newWorld oneKey)) y ∧
    (∃ r, y.threads true = .ret r) ∧
    ∀ n, oneKey.bucket.Yields (newCache.dirPrefix 0) n → ∃ ch, (y.conf.state.cache.heap 0).getChild n = some ch := by
  have hrun : ((twoLoads ROOT_INODE_ID (newWorld oneKey)).exec (fun i l x => decide (NoFileWaits i l x)) bothMergeFirst).any
      (fun y => (y.threads true).value.isSome) = true := by decide +kernel
  obtain ⟨y, hy, hret⟩ := (Option.any_eq_true _ _).mp hrun
  obtain ⟨r, hr⟩ := Prog.of_value hret
  have hruns : Pool.Runs NoFileWaits Later (twoLoads ROOT_INODE_ID (newWorld oneKey)) y :=
    Pool.runs_exec (fun _ _ _ => of_decide_eq_true) hy
  refine ⟨y, hruns, ⟨r, hr⟩, loads_complete Log.client_serves (show Reachable ⟨0, 0, 60⟩ newCache from .new ⟨0, 0⟩)
    (show newCache.lookup ROOT_INODE_ID = some 0 from rfl) (fun _ => 1) oneKey ⟨0, 0⟩ noGarbage ?_ hruns hr⟩
  rintro ⟨hcomplete, -⟩
  cases hcomplete

/-- A bucket with the one key `x`. -/
def plainKey : Log := [(.putFile ['x'] [], true)]

/-- Both calls have returned, and `n` is no child of `a`. -/
def endWithout (a : Addr) (n : Str) (x : Pool Bool MetaAct Err (World Log) (List Dirent)) : Bool :=
  (x.threads false).value.isSome && (x.threads true).value.isSome && ((x.conf.state.cache.heap a).getChild n).isNone

theorem endWithout_spec {a : Addr} {n : Str} {x : Pool Bool MetaAct Err (World Log) (List Dirent)} (h : endWithout a n x = true) :
    (∃ r, x.threads false = .ret r) ∧ (∃ r, x.threads true = .ret r) ∧ (x.conf.state.cache.heap a).getChild n = none := by
  simp only [endWithout, Bool.and_eq_true, Option.isNone_iff_eq_none] at h
  exact ⟨Prog.of_value h.1.1, Prog.of_value h.1.2, h.2⟩

/-- The directory `a` is answered from the cache without the name `b`, in a run without a sweep. And with a file the first
    sweep resets the mark, and the second removes the file. -/
theorem loads_miss_name :
    (∃ y, Pool.Runs (fun _ l x => l.Spares x.state.cache) Later (twoLoads 2 sweptIntoDir) y ∧
      (∃ r, y.threads false = .ret r) ∧ (∃ r, y.threads true = .ret r) ∧
      sweptIntoDir.stor.bucket.Yields (sweptIntoDir.cache.dirPrefix 1) ['b'] ∧ (y.conf.state.cache.heap 1).getChild ['b'] = none) ∧
    ∃ y, Pool.Runs (fun _ _ _ => True) Later (twoLoads ROOT_INODE_ID (newWorld plainKey)) y ∧
      (∃ r, y.threads false = .ret r) ∧ (∃ r, y.threads true = .ret r) ∧
      plainKey.bucket.Yields (newCache.dirPrefix 0) ['x'] ∧ (y.conf.state.cache.heap 0).getChild ['x'] = none := by
  constructor
  · have hrun : ((twoLoads 2 sweptIntoDir).exec (fun _ l x => sparesWithin 0 l x.state.cache)
        (List.replicate 3 false ++ List.replicate 3 true)).any (endWithout 1 ['b']) = true := by decide +kernel
    obtain ⟨y, hy, hend⟩ := (Option.any_eq_true _ _).mp hrun
    obtain ⟨hfst, hsnd, hnone⟩ := endWithout_spec hend
    have hholds : (sweptIntoDir.stor.bucket (sweptIntoDir.cache.dirPrefix 1 ++ ['b'])).isSome = true := by decide +kernel
    exact ⟨y, Pool.runs_exec (fun _ _ _ h => spares_of_within h) hy, hfst, hsnd, ⟨by decide, by decide, .inl hholds⟩, hnone⟩
  · have hrun : ((twoLoads ROOT_INODE_ID (newWorld plainKey)).exec (fun _ _ _ => true) bothMergeFirst).any
        (endWithout 0 ['x']) = true := by decide +kernel
    obtain ⟨y, hy, hend⟩ := (Option.any_eq_true _ _).mp hrun
    obtain ⟨hfst, hsnd, hnone⟩ := endWithout_spec hend
    have hholds : (plainKey.bucket (newCache.dirPrefix 0 ++ ['x'])).isSome = true := by decide +kernel
    exact ⟨y, Pool.runs_exec (fun _ _ _ _ => trivial) hy, hfst, hsnd, ⟨by decide, by decide, .inl hholds⟩, hnone⟩

end MetaImpl

end Catfs
