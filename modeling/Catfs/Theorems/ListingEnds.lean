import Catfs.Theorems.Browsing
import Catfs.Theorems.ChangingBucket
import Catfs.Theorems.CheckedCreate

/-! # A listing ends

The loop over the pages of a listing goes on as long as a page says that there are more, and other clients may change the
bucket between the pages. Each full page moves the marker past its items, so that a listing takes no more pages than the
keys that the bucket ever held fill (`listing_ends`). -/

namespace Catfs

open Lib MetaM LocalMemMeta
open EStateM (Result)

namespace MetaImpl
variable {ι σ α : Type} [DecidableEq ι] {c : S3Client σ} {st : Stor σ} {view : σ → Bucket} {opt : MetaOpt} {ino : InodeID}
  {pre marker : Str} {a : Addr} {i : ι} {hist : Hist σ} {s : World σ}

/-- The number of pages that were asked for. -/
def pagesAsked (hist : Hist σ) : Nat := (hist.filter fun e => isList e.1).length

omit [DecidableEq ι] in
theorem pagesAsked_list : pagesAsked (hist ++ [(.list pre marker, s)]) = pagesAsked hist + 1 := by simp [pagesAsked, isList]

theorem pagesAsked_other {l : MetaAct} (hl : isList l = false) : pagesAsked (hist ++ [(l, s)]) = pagesAsked hist := by simp [pagesAsked, hl]

/-- The items of the full pages read so far: entries that the bucket had then, each once, none beyond the marker. -/
structure Paged (view : σ → Bucket) (pre marker : Str) (hist : Hist σ) (items : List Str) : Prop where
  sorted : items.Pairwise (· < ·)
  length : items.length = 1000 * pagesAsked hist
  start : marker = [] → items = []
  le : ∀ x ∈ items, x ≤ marker
  seen : ∀ x ∈ items, ∃ e ∈ hist, ∃ es, (view e.2.stor).Entries pre es ∧ x ∈ es

theorem Paged.first (h : pagesAsked hist = 0) : Paged view pre [] hist [] where
  sorted := .nil
  length := by simp [h]
  start _ := rfl
  le := by simp
  seen := by simp

theorem Paged.other {l : MetaAct} {items : List Str} (h : Paged view pre marker hist items) (hl : isList l = false) :
    Paged view pre marker (hist ++ [(l, s)]) items where
  sorted := h.sorted
  length := by rw [pagesAsked_other hl, h.length]
  start := h.start
  le := h.le
  seen x hx := by
    obtain ⟨e, he, hes⟩ := h.seen x hx
    exact ⟨e, List.mem_append_left _ he, hes⟩

/-- A full page was read. -/
theorem Paged.page {items es : List Str} {r : ListObjectsResult} (h : Paged view pre marker hist items)
    (hes : (view s.stor).Entries pre es) (hpage : r.PageOf (pageRequest pre marker) es) (ht : r.isTruncated = true) :
    Paged view pre r.nextMarker (hist ++ [(.list pre marker, s)]) (items ++ Lib.page (Log.markerOf marker) 1000 es) := by
  have hfull : (Lib.page (Log.markerOf marker) 1000 es).length = 1000 := by
    have htrunc := hpage.isTruncated.symm.trans ht
    have hlong : 1000 < (after (Log.markerOf marker) es).length := of_decide_eq_true htrunc
    rw [Lib.page, List.length_take, Nat.min_eq_left hlong.le]
  have hsorted : (Lib.page (Log.markerOf marker) 1000 es).Pairwise (· < ·) := (hes.sorted.filter _).take
  have hle : ∀ y ∈ Lib.page (Log.markerOf marker) 1000 es, y ≤ r.nextMarker := le_last hsorted (hpage.nextMarker ht)
  have hlt : ∀ x ∈ items, ∀ y ∈ Lib.page (Log.markerOf marker) 1000 es, x < y := by
    intro x hx y hy
    have hne : marker ≠ [] := fun hstart => List.ne_nil_of_mem hx (h.start hstart)
    exact lt_of_le_of_lt (h.le x hx) ((mem_after.mp (List.mem_of_mem_take hy)).2 marker (if_neg hne))
  have hnext : r.nextMarker ∈ Lib.page (Log.markerOf marker) 1000 es := List.mem_of_getLast? (hpage.nextMarker ht)
  refine ⟨List.pairwise_append.mpr ⟨h.sorted, hsorted, hlt⟩, ?_, fun hstart => ?_, fun x hx => ?_, fun x hx => ?_⟩
  · rw [List.length_append, h.length, hfull, pagesAsked_list]
    omega
  · -- a thousand items are not all the empty name
    have hall : ∀ y ∈ Lib.page (Log.markerOf marker) 1000 es, y = [] := fun y hy =>
      le_antisymm (hstart ▸ hle y hy) (not_lt.mp (List.not_lt_nil y))
    have hnodup : (Lib.page (Log.markerOf marker) 1000 es).Nodup := hsorted.imp fun h => ne_of_lt h
    rw [List.eq_replicate_of_mem hall, hfull] at hnodup
    have hone := List.nodup_replicate.mp hnodup
    omega
  · rcases List.mem_append.mp hx with hx | hx
    · exact (hlt x hx _ hnext).le
    · exact hle x hx
  · rcases List.mem_append.mp hx with hx | hx
    · obtain ⟨e, he, hseen⟩ := h.seen x hx
      exact ⟨e, List.mem_append_left _ he, hseen⟩
    · exact ⟨_, List.mem_append_right _ (List.mem_singleton_self _), es, hes, mem_of_mem_page hx⟩

/-! ### The pages that a listing asks for -/

/-- A page is asked for only when the pages before it were full. -/
def Due (view : σ → Bucket) (hist : Hist σ) (l : MetaAct) : Prop :=
  ∀ pre marker, l = .list pre marker → ∃ items, Paged view pre marker hist items

/-- The thread `i` asks for pages as `Due` says. -/
abbrev Asking (view : σ → Bucket) (i : ι) (K : Hist σ → Prop) (q : MetaM σ α) (K' : α → Hist σ → Prop) : Prop :=
  q.Heeds CacheInv Grown (fun j hist l _ => j = i → Due view hist l) i (fun hist _ => K hist) fun r hist _ => K' r hist

variable {K : Hist σ → Prop}

theorem due_other {l : MetaAct} (hl : isList l = false) : Due view hist l := by
  rintro pre marker rfl
  cases hl

/-- A part that asks for no page. -/
theorem asking_tame {q : MetaM σ α} (hq : Tame q) (hlabels : q.Labels fun l => isList l = false)
    (hK : ∀ hist l s, isList l = false → K hist → K (hist ++ [(l, s)])) : Asking view i K q fun _ => K :=
  heeds_tame hq hlabels (fun _ _ _ hl _ _ => due_other hl) (fun _ => lasts_const) fun _ _ _ _ hl hk => hK _ _ _ hl hk

theorem asking_refreshLoop (hc : c.PagesInOrder view) (fuel : Nat) (marker : Str) :
    Asking view i (fun hist => ∃ items, Paged view pre marker hist items) (refreshLoop (s3Stor c) ino pre fuel marker) fun _ _ => True := by
  induction fuel generalizing marker with
  | zero => trivial
  | succ fuel ih =>
    have hlist : Asking view i (fun hist => ∃ items, Paged view pre marker hist items)
        (call (.list pre marker) ((s3Stor c).listObjects { delimiter := slash, pre, max := 1000, marker })) fun resp hist =>
        resp.isTrunc = true → ∃ items, Paged view pre resp.nextMarker hist items := by
      refine Prog.heeds_lift (fun _ _ _ _ _ h => h) fun hist s hs hpaged => ⟨fun _ pre' marker' heq => ?_, ?_, ?_⟩
      · obtain ⟨rfl, rfl⟩ := MetaAct.list.inj heq
        exact hpaged
      · have hkept : ∀ t : σ, CacheInv { s with stor := t } ∧ Grown s { s with stor := t } := fun t => ⟨hs, hs, hs, .refl _⟩
        simp only [zoom]
        cases (s3Stor c).listObjects { delimiter := slash, pre, max := 1000, marker } s.stor <;> exact hkept _
      · rintro resp s' hr ht
        simp only [zoom] at hr
        cases hlist : (s3Stor c).listObjects { delimiter := slash, pre, max := 1000, marker } s.stor with
        | ok resp' t =>
          simp only [hlist, Result.ok.injEq] at hr
          obtain ⟨rfl, rfl⟩ := hr
          obtain ⟨r, rfl, hr⟩ := of_listObjects hlist
          obtain ⟨es, hes⟩ := hc.entries s.stor pre
          obtain ⟨items, hpaged⟩ := hpaged
          exact ⟨_, hpaged.page hes (hc.list _ _ es r t rfl (Nat.succ_pos _) hes hr) ht⟩
        | error e t =>
          rw [hlist] at hr
          cases hr
    refine hlist.bind fun resp => ?_
    cases buildFtree pre resp with
    | none => trivial
    | some children =>
      have hbuild : Asking view i (fun hist => resp.isTrunc = true → ∃ items, Paged view pre resp.nextMarker hist items)
          (cache (.build ino (children.map FTreeNode.name)) fun now => buildDentries now ino children) fun _ hist =>
          resp.isTrunc = true → ∃ items, Paged view pre resp.nextMarker hist items :=
        asking_tame (tame_cache fun _ => kept_buildDentries) (Prog.labels_lift rfl) fun hist l s hl h ht =>
          (h ht).imp fun items hpaged => hpaged.other hl
      refine hbuild.bind fun _ => ?_
      cases ht : resp.isTrunc with
      | true => exact Prog.Sat.pre (ih resp.nextMarker) fun x hx => ⟨hx.1, hx.2 rfl⟩
      | false => exact Prog.sat_pure fun x hx => ⟨hx.1, trivial⟩

theorem asking_load (hc : c.PagesInOrder view) {fuel : Nat} : Asking view i (fun hist => pagesAsked hist = 0)
    (loadSubDentries (s3Stor c) fuel ino) fun _ _ => True := by
  have hnone : ∀ {α : Type} {q : MetaM σ α}, Tame q → (q.Labels fun l => isList l = false) →
      Asking view i (fun hist => pagesAsked hist = 0) q fun _ hist => pagesAsked hist = 0 := fun hq hlabels =>
    asking_tame hq hlabels fun _ _ _ hl h => (pagesAsked_other hl).trans h
  have hdone : ∀ {α : Type} {q : MetaM σ α}, Tame q → (q.Labels fun l => isList l = false) →
      Asking view i (fun _ => True) q fun _ _ => True := fun hq hlabels => asking_tame hq hlabels fun _ _ _ _ _ => trivial
  have hchildren : ∀ {a : Addr}, (listChildren a : MetaM σ _).Labels fun l => isList l = false := by
    intro a
    exact Prog.Preserves.bind (Prog.labels_lift rfl) fun _ => trivial
  refine Prog.Sat.bind (hnone tame_getDentry (Prog.labels_lift rfl)) fun r => ?_
  cases r with
  | none => trivial
  | some a =>
    refine Prog.Sat.bind (hnone tame_needsRefresh (Prog.labels_lift rfl)) fun stale => ?_
    cases stale with
    | false => exact (hnone tame_listChildren hchildren).post fun _ x hx => ⟨hx.1, trivial⟩
    | true =>
      have hrefresh : Asking view i (fun hist => pagesAsked hist = 0) (refreshSubDentries (s3Stor c) fuel a) fun _ _ => True := by
        refine Prog.Sat.bind (hnone tame_pathWithSlash (Prog.labels_lift rfl)) fun pre =>
          Prog.Sat.bind (hnone tame_readDentry (Prog.labels_lift rfl)) fun d => ?_
        refine Prog.Sat.bind (Prog.Sat.pre (asking_refreshLoop hc fuel []) fun x hx => ⟨hx.1, _, Paged.first hx.2⟩) fun _ => ?_
        exact hdone (tame_cache fun _ => kept_clearUnsyncDentry) (Prog.labels_lift rfl)
      exact hrefresh.bind fun _ => hdone tame_listChildren hchildren

/-! ### How many pages there are -/

omit [DecidableEq ι] in
/-- Each entry of a listing comes from a key. -/
theorem key_of_entry {b : Bucket} {es : List Str} {x : Str} (hes : b.Entries pre es) (hx : x ∈ es) :
    ∃ key, b.Holds key ∧ Log.entryOf pre key = some x := by
  refine (Log.entryOf_cases b).mpr ?_
  rcases (hes.mem x).mp hx with ⟨n, rfl, hn, hkey⟩ | ⟨n, rfl, hn, hrest⟩
  · exact .inl ⟨not_isPrefix hn, n, rfl, hn, hkey⟩
  · exact .inr ⟨isPrefix_slash, n, rfl, hn, hrest⟩

omit [DecidableEq ι] in
/-- There are no more full pages than the keys fill. -/
theorem Paged.bound {items keys : List Str} (h : Paged view pre marker hist items)
    (hkeys : ∀ e ∈ hist, ∀ key, (view e.2.stor).Holds key → key ∈ keys) : 1000 * pagesAsked hist ≤ keys.length := by
  have hnodup : items.Nodup := h.sorted.imp fun h => ne_of_lt h
  have hsub : items ⊆ keys.filterMap (Log.entryOf pre) := by
    intro x hx
    obtain ⟨e, he, es, hes, hmem⟩ := h.seen x hx
    obtain ⟨key, hkey, hentry⟩ := key_of_entry hes hmem
    exact List.mem_filterMap.mpr ⟨key, hkeys e he key hkey, hentry⟩
  rw [← h.length]
  exact (List.subperm_of_subset hnodup hsub).length_le.trans (List.length_filterMap_le _ _)

/-- Of pages that were all due, there are no more than the keys fill, and the last one. -/
theorem pages_bound {past : List (ι × MetaAct × World σ)} {keys : List Str}
    (h : Each (fun j hist l _ => j = i → Due view hist l) past)
    (hkeys : ∀ e ∈ past, ∀ key, (view e.2.2.stor).Holds key → key ∈ keys) : pagesAsked (own i past) ≤ keys.length / 1000 + 1 := by
  induction past using List.reverseRecOn with
  | nil => exact Nat.zero_le _
  | append_singleton past e ih =>
    have hbefore : ∀ e ∈ past, ∀ key, (view e.2.2.stor).Holds key → key ∈ keys := fun e he => hkeys e (List.mem_append_left _ he)
    obtain ⟨j, l, s⟩ := e
    by_cases hj : i = j
    · subst hj
      rw [own_self]
      cases hl : isList l with
      | false =>
        rw [pagesAsked_other hl]
        exact ih h.front hbefore
      | true =>
        cases l with
        | list pre marker =>
          obtain ⟨items, hpaged⟩ := h.last rfl pre marker rfl
          have hbound := hpaged.bound fun e he => hbefore (i, e) (by simpa [own] using he)
          rw [pagesAsked_list]
          omega
        | _ => cases hl
    · rw [own_other hj]
      exact ih h.front hbefore

/-- The run lemma: a load asks for its pages as `Due` says. -/
theorem due_load {opt : ι → MetaOpt} {fuel : ι → Nat} {reqs : ι → Request} (hc : c.PagesInOrder view) (hs : CacheInv s)
    {y : Pool ι MetaAct Err (World σ) Unit}
    (h : Pool.Runs (fun _ _ _ => True) CacheStays (requestPool opt (s3Stor c) fuel reqs s) y) (hi : reqs i = .load ino) :
    Each (fun j hist l _ => j = i → Due view hist l) y.conf.past := by
  refine requests_heed (fun j => ?_) hs h
  by_cases hj : j = i
  · subst hj
    have hload : Asking view j (fun hist => pagesAsked hist = 0) ((reqs j).prog (opt j) (s3Stor c) (fuel j)) fun _ _ => True := by
      rw [hi]
      exact Prog.Sat.map (asking_load hc)
    refine Prog.Sat.pre hload fun x hx => ⟨hx.1, ?_⟩
    rw [hx.2]
    rfl
  · have hother : ((reqs j).prog (opt j) (s3Stor c) (fuel j)).Heeds CacheInv Grown (fun j hist l _ => j = i → Due view hist l)
        j (fun _ _ => True) fun _ _ _ => True :=
      heeds_tame (K := fun _ _ => True) (tame_request (reqs j)) (tame_request (reqs j)).labels
        (fun _ _ _ _ _ heq => absurd heq hj) (fun _ => lasts_true) fun _ _ _ _ _ _ => trivial
    exact Prog.Sat.pre hother fun x hx => ⟨hx.1, trivial⟩

/-- While a directory is listed, other requests run and other clients change the bucket in any way, between any two steps. A
    page is asked for only after full pages, and there are no more of those than the keys fill that the bucket had at one time
    or another. So the loop of a listing ends. -/
theorem listing_ends {opt : ι → MetaOpt} {fuel : ι → Nat} {reqs : ι → Request} (hc : c.PagesInOrder view) (hs : CacheInv s)
    {y : Pool ι MetaAct Err (World σ) Unit}
    (h : Pool.Runs (fun _ _ _ => True) CacheStays (requestPool opt (s3Stor c) fuel reqs s) y) (hi : reqs i = .load ino)
    {keys : List Str} (hkeys : ∀ e ∈ y.conf.past, ∀ key, (view e.2.2.stor).Holds key → key ∈ keys) :
    pagesAsked (own i y.conf.past) ≤ keys.length / 1000 + 1 := pages_bound (due_load hc hs h hi) hkeys

/-- The keys of the bucket stay as they were. -/
def keepsKeys (e : Bool × MetaAct × World Log) : Bool := e.2.2.stor.keys = twoObjects.keys

theorem holds_keepsKeys {past : List (Bool × MetaAct × World Log)} (h : past.all keepsKeys = true) :
    ∀ e ∈ past, ∀ key, (Log.bucket e.2.2.stor).Holds key → key ∈ twoObjects.keys := by
  intro e he key hkey
  have hsame : e.2.2.stor.keys = twoObjects.keys := of_decide_eq_true (List.all_eq_true.mp h e he)
  exact hsame ▸ Log.mem_keys.mpr hkey

/-- The listing asks for its page while the lookup is at work. -/
theorem looks_asked : ∃ y, bothLooks.exec (fun _ _ _ => true) (List.replicate 4 false ++ List.replicate 8 true ++ List.replicate 3 false) =
    some y ∧ (y.conf.past.all keepsKeys && y.conf.past.any fun e => isList e.2.1) = true := (Option.any_eq_true _ _).mp (by decide +kernel)

theorem listing_ends_both : ∃ y, Pool.Runs (fun _ _ _ => True) CacheStays bothLooks y ∧
    (∃ e ∈ y.conf.past, isList e.2.1 = true) ∧ pagesAsked (own true y.conf.past) ≤ 1 := by
  obtain ⟨y, hy, hall⟩ := looks_asked
  obtain ⟨hkeys, hasked⟩ := (Bool.and_eq_true _ _).mp hall
  have hruns : Pool.Runs (fun _ _ _ => True) CacheStays (requestPool (fun _ => ⟨0, 0, 60⟩) (s3Stor Log.client)
      (fun _ => 2) lookAndList (newWorld twoObjects)) y := Pool.runs_exec (fun _ _ _ _ => trivial) hy
  have hload : lookAndList true = .load ROOT_INODE_ID := rfl
  have hlength : twoObjects.keys.length / 1000 + 1 = 1 := by decide +kernel
  have hends := listing_ends Log.client_inOrder.pages (show CacheInv (newWorld twoObjects) from .new ⟨0, 0, 60⟩ ⟨0, 0⟩) hruns hload
    (holds_keepsKeys hkeys)
  exact ⟨y, hruns, List.any_eq_true.mp hasked, hlength ▸ hends⟩

end MetaImpl

end Catfs
