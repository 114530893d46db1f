import Catfs.Theorems.CacheKeeps

/-! # The sweep

Which dentries `clear_unsync_dentry` visits is fixed by the marks it starts from: a dentry's mark is read once,
when the directory above it is taken from the queue, and no dentry is in the queue twice. -/

namespace Catfs

open Lib
open EStateM (Result)

namespace LocalMemMeta

variable {m m' m₀ : LocalMemMeta} {a b c p : Addr} {now : Timespec} {n : Str}

/-- `c` stays a child of `a` when `a` is swept. -/
def KeptChild (m : LocalMemMeta) (a : Addr) (n : Str) (c : Addr) : Prop :=
  (m.heap a).getChild n = some c ∧ (m.heap c).synced = true

/-! ### What the sweep does to one dentry -/

theorem visit_inode {t : Nat} {d : Dentry} : (visit now t d).inode = d.inode := by
  unfold visit
  dsimp only
  split <;> rfl

theorem visit_synced {t : Nat} {d : Dentry} : (visit now t d).synced = true := by
  unfold visit
  dsimp only
  split <;> rfl

theorem visit_complete {t : Nat} {d : Dentry} : (visit now t d).complete = (d.complete || d.childCount != 0) := by
  unfold visit
  dsimp only
  split
  · rename_i h
    exact (Bool.or_eq_true_iff.mpr (.inr h)).symm
  · rename_i h
    rw [Bool.not_eq_true] at h
    exact (show d.complete = (d.complete || d.childCount != 0) by rw [show (d.childCount != 0) = false from h, Bool.or_false])

theorem visit_ttl {t : Nat} {d : Dentry} : (visit now t d).ttl = { now with sec := now.sec + t } := by
  unfold visit
  dsimp only
  split <;> rfl

theorem keepChild_inode {t : Nat} {d : Dentry} : (keepChild now t d).inode = d.inode := by
  unfold keepChild
  dsimp only
  split <;> rfl

theorem keepChild_complete {t : Nat} {d : Dentry} :
    (keepChild now t d).complete = (d.complete || (d.isDir && d.childCount != 0)) := by
  unfold keepChild
  dsimp only
  split
  · rename_i h
    exact (Bool.or_eq_true_iff.mpr (.inr h)).symm
  · rename_i h
    rw [Bool.not_eq_true] at h
    exact (show d.complete = (d.complete || (d.isDir && d.childCount != 0)) by
      rw [show (d.isDir && d.childCount != 0) = false from h, Bool.or_false])

/-- The expiry time that a sweep sets. -/
def sweepTtl (now : Timespec) (m : LocalMemMeta) : Timespec := { now with sec := now.sec + m.opt.dcacheTimeout }

/-! ### The children of one dentry -/

/-- From `m` to `m'` the loop went over the children `entries` of `a`, and gave `pushed`. -/
structure ChildrenSwept (now : Timespec) (a : Addr) (entries : List (Sigma fun _ : Str => Addr)) (m m' : LocalMemMeta)
    (pushed : List Addr) : Prop where
  next : m'.heapNext = m.heapNext
  opt : m'.opt = m.opt
  child : ∀ n c, (m'.heap a).getChild n = some c ↔
    (m.heap a).getChild n = some c ∧ (⟨n, c⟩ ∈ entries → (m.heap c).synced = true)
  self : (m'.heap a).inode = (m.heap a).inode ∧ (m'.heap a).complete = (m.heap a).complete ∧
    (m'.heap a).synced = (m.heap a).synced
  ttl : (m'.heap a).ttl = (m.heap a).ttl
  kept : ∀ e ∈ entries, (m.heap e.2).synced = true → m'.heap e.2 = keepChild now m.opt.dcacheTimeout (m.heap e.2)
  same : ∀ b, b ≠ a → (∀ e ∈ entries, e.2 = b → (m.heap b).synced = false) → m'.heap b = m.heap b
  pushed : pushed = (entries.map Sigma.snd).filter fun c => (m.heap c).synced && (m.heap c).isDir

section
variable {entries : List (Sigma fun _ : Str => Addr)} {pushed : List Addr} (hm : Inv m) (ha : a < m.heapNext)
  (hc : (m.heap a).getChild n = some c) (hentries : ∀ e ∈ entries, (m.heap a).getChild e.1 = some e.2)
  (hne : ∀ e ∈ entries, e.1 ≠ n)
include hm ha hc hentries hne

/-- Different children of `a` have different names, so they are different dentries. -/
theorem other_children : ∀ e ∈ entries, e.2 ≠ c := by
  intro e he h
  obtain ⟨-, -, hname, -⟩ := hm.child a n c ha hc
  obtain ⟨-, -, hname', -⟩ := hm.child a e.1 e.2 ha (hentries e he)
  exact hne e he (by rw [← hname', h, hname])

/-- The first child stays. -/
theorem ChildrenSwept.keep (hs : (m.heap c).synced = true)
    (h : ChildrenSwept now a entries (m.set c (keepChild now m.opt.dcacheTimeout)) m' pushed) :
    ChildrenSwept now a (⟨n, c⟩ :: entries) m m' (if (m.heap c).isDir then c :: pushed else pushed) := by
  have hac := (hm.child a n c ha hc).1
  have hnec := other_children hm ha hc hentries hne
  have hself : (m.set c (keepChild now m.opt.dcacheTimeout)).heap a = m.heap a := heap_set_ne (Nat.ne_of_lt hac)
  have hother : ∀ e ∈ entries, (m.set c (keepChild now m.opt.dcacheTimeout)).heap e.2 = m.heap e.2 :=
    fun e he => heap_set_ne (hnec e he)
  refine ⟨h.next, h.opt, ?_, ?_, ?_, ?_, ?_, ?_⟩
  · intro k d
    rw [h.child, hself]
    refine and_congr_right fun hd => ⟨fun hk he => ?_, fun hk he => ?_⟩
    · rcases List.mem_cons.mp he with he | he
      · cases he
        exact hs
      · exact hother _ he ▸ hk he
    · rw [hother _ he]
      exact hk (List.mem_cons_of_mem _ he)
  · rw [h.self.1, h.self.2.1, h.self.2.2, hself]
    exact ⟨rfl, rfl, rfl⟩
  · rw [h.ttl, hself]
  · intro e he hse
    rcases List.mem_cons.mp he with rfl | he
    · rw [h.same c (Nat.ne_of_gt hac) fun e he hec => absurd hec (hnec e he), heap_set_self]
    · rw [h.kept e he (by rw [hother e he]; exact hse), hother e he]
      rfl
  · intro b hb hb'
    have hbc : b ≠ c := by
      rintro rfl
      rw [hb' _ (List.mem_cons_self ..) rfl] at hs
      cases hs
    rw [h.same b hb fun e he heb => ?_, heap_set_ne hbc]
    rw [heap_set_ne hbc]
    exact hb' e (List.mem_cons_of_mem _ he) heb
  · have hp : pushed = (entries.map Sigma.snd).filter fun c => (m.heap c).synced && (m.heap c).isDir := by
      rw [h.pushed]
      refine List.filter_congr fun d hd => ?_
      obtain ⟨e, he, rfl⟩ := List.mem_map.mp hd
      rw [hother e he]
    rw [hp, List.map_cons, List.filter_cons, hs, Bool.true_and]

omit hm ha hc hentries hne in
theorem getChild_erase {k : Str} {d : Addr} :
    ((m.set a fun d => { d with children := d.children.erase n }).heap a).getChild k = some d ↔
    k ≠ n ∧ (m.heap a).getChild k = some d := by
  rw [heap_set_self]
  by_cases hk : k = n
  · subst hk
    simp [Dentry.getChild]
  · simp [Dentry.getChild, AList.lookup_erase_ne hk, hk]

/-- The first child goes. -/
theorem ChildrenSwept.drop (hs : (m.heap c).synced = false)
    (h : ChildrenSwept now a entries (m.set a fun d => { d with children := d.children.erase n }) m' pushed) :
    ChildrenSwept now a (⟨n, c⟩ :: entries) m m' pushed := by
  have hother : ∀ b, b ≠ a → (m.set a fun d => { d with children := d.children.erase n }).heap b = m.heap b :=
    fun b hb => heap_set_ne hb
  have hlt : ∀ e ∈ entries, e.2 ≠ a := fun e he => Nat.ne_of_gt (hm.child a e.1 e.2 ha (hentries e he)).1
  refine ⟨h.next, h.opt, ?_, ?_, ?_, ?_, ?_, ?_⟩
  · intro k d
    rw [h.child, getChild_erase, and_assoc, and_left_comm]
    refine and_congr_right fun hd => ⟨fun h he => ?_, fun hsy => ⟨?_, fun he => ?_⟩⟩
    · rcases List.mem_cons.mp he with he | he
      · cases he
        exact absurd rfl h.1
      · exact hother _ (hlt _ he) ▸ h.2 he
    · rintro rfl
      rw [hc] at hd
      cases hd
      rw [hsy (List.mem_cons_self ..)] at hs
      cases hs
    · rw [hother _ (hlt _ he)]
      exact hsy (List.mem_cons_of_mem _ he)
  · rw [h.self.1, h.self.2.1, h.self.2.2, heap_set_self]
    exact ⟨rfl, rfl, rfl⟩
  · rw [h.ttl, heap_set_self]
  · intro e he hse
    rcases List.mem_cons.mp he with rfl | he
    · rw [hse] at hs
      cases hs
    · rw [h.kept e he (by rw [hother _ (hlt e he)]; exact hse), hother _ (hlt e he)]
      rfl
  · intro b hb hb'
    rw [h.same b hb fun e he heb => ?_, hother b hb]
    rw [hother b hb]
    exact hb' e (List.mem_cons_of_mem _ he) heb
  · have hp : pushed = (entries.map Sigma.snd).filter fun c => (m.heap c).synced && (m.heap c).isDir := by
      rw [h.pushed]
      refine List.filter_congr fun d hd => ?_
      obtain ⟨e, he, rfl⟩ := List.mem_map.mp hd
      rw [hother _ (hlt e he)]
    rw [hp, List.map_cons, List.filter_cons, hs]
    simp

end

theorem run_sweepChildren (now : Timespec) {entries : List (Sigma fun _ : Str => Addr)} (hm : Inv m) (ha : a < m.heapNext)
    (hentries : ∀ e ∈ entries, (m.heap a).getChild e.1 = some e.2) (hnodup : (entries.map Sigma.fst).Nodup) :
    ∃ pushed m', sweepChildren now a entries m = .ok pushed m' ∧ ChildrenSwept now a entries m m' pushed := by
  induction entries generalizing m with
  | nil => exact ⟨[], m, rfl, rfl, rfl, by simp, ⟨rfl, rfl, rfl⟩, rfl, by simp, fun _ _ _ => rfl, rfl⟩
  | cons e rest ih =>
    obtain ⟨n, c⟩ := e
    have hc : (m.heap a).getChild n = some c := hentries _ (List.mem_cons_self ..)
    obtain ⟨hac, -, hname, -⟩ := hm.child a n c ha hc
    obtain ⟨hn, hrest⟩ := List.nodup_cons.mp hnodup
    have hrest' : ∀ e ∈ rest, (m.heap a).getChild e.1 = some e.2 := fun e he => hentries e (List.mem_cons_of_mem _ he)
    have hne : ∀ e ∈ rest, e.1 ≠ n := fun e he h => hn (List.mem_map.mpr ⟨e, he, h⟩)
    rw [sweepChildren, bind_ok run_load]
    cases hs : (m.heap c).synced with
    | true =>
      have hself : (m.set c (keepChild now m.opt.dcacheTimeout)).heap a = m.heap a := heap_set_ne (Nat.ne_of_lt hac)
      have hm' : Inv (m.set c (keepChild now m.opt.dcacheTimeout)) := hm.set Mild.keepChild
      obtain ⟨pushed, m', hrun, h⟩ := ih hm' ha (fun e he => by rw [hself]; exact hrest' e he) hrest
      refine ⟨_, m', ?_, h.keep hm ha hc hrest' hne hs⟩
      have hget : (get : LocalM _) m = .ok m m := rfl
      simp only [if_true]
      rw [bind_ok hget, bind_ok run_store, bind_ok hrun]
      rfl
    | false =>
      obtain ⟨pushed, m', hrun, h⟩ := ih (hm.set Mild.erase) ha (fun e he => getChild_erase.mpr ⟨hne e he, hrest' e he⟩) hrest
      refine ⟨pushed, m', ?_, h.drop hm ha hc hrest' hne hs⟩
      simp only [Bool.false_eq_true, if_false]
      rw [hname, bind_ok run_removeChild, hrun]

/-! ### One turn of the loop -/

/-- From `m` to `m'` the dentry `a` was taken from the queue, and `pushed` went into it. -/
structure Turn (now : Timespec) (a : Addr) (m m' : LocalMemMeta) (pushed : List Addr) : Prop where
  inv : Inv m'
  grow : Grow m m'
  next : m'.heapNext = m.heapNext
  child : ∀ n c, (m'.heap a).getChild n = some c ↔ m.KeptChild a n c
  inode : (m'.heap a).inode = (m.heap a).inode
  complete : (m'.heap a).complete = ((m.heap a).complete || (m.heap a).childCount != 0)
  synced : (m'.heap a).synced = true
  ttl : (m'.heap a).ttl = sweepTtl now m
  kept : ∀ n c, m.KeptChild a n c → m'.heap c = keepChild now m.opt.dcacheTimeout (m.heap c)
  same : ∀ b, b ≠ a → (∀ n, ¬ m.KeptChild a n b) → m'.heap b = m.heap b
  nodup : pushed.Nodup
  pushed : ∀ c, c ∈ pushed ↔ (∃ n, m.KeptChild a n c) ∧ (m.heap c).isDir = true

theorem Inv.children_nodup (hm : Inv m) (ha : a < m.heapNext) : ((m.heap a).children.entries.map Sigma.snd).Nodup := by
  have hnames : ((m.heap a).children.entries.map Sigma.snd).map (fun c => (m.heap c).name) =
      (m.heap a).children.entries.map Sigma.fst := by
    rw [List.map_map]
    refine List.map_congr_left fun e he => ?_
    exact (hm.child a e.1 e.2 ha (AList.mem_lookup_iff.mpr he)).2.2.1
  refine List.Nodup.of_map (fun c => (m.heap c).name) ?_
  rw [hnames]
  exact (m.heap a).children.nodupKeys

theorem run_turn (now : Timespec) (hm : Inv m) (ha : a < m.heapNext) (fuel : Nat) (queue : List Addr) :
    ∃ pushed m', sweepLoop now (fuel + 1) (a :: queue) m = sweepLoop now fuel (queue ++ pushed) m' ∧
      Turn now a m m' pushed := by
  have hm₁ : Inv (m.set a (visit now m.opt.dcacheTimeout)) := hm.set Mild.visit
  have hself : (m.set a (visit now m.opt.dcacheTimeout)).heap a = visit now m.opt.dcacheTimeout (m.heap a) := heap_set_self
  have hchild : ∀ n, ((m.set a (visit now m.opt.dcacheTimeout)).heap a).getChild n = (m.heap a).getChild n := fun n => by
    rw [hself, Dentry.getChild, visit_children, Dentry.getChild]
  have hentries : ∀ n c, ⟨n, c⟩ ∈ ((m.set a (visit now m.opt.dcacheTimeout)).heap a).children.entries ↔
      (m.heap a).getChild n = some c := fun n c => by
    rw [← hchild]
    exact AList.mem_lookup_iff.symm
  have hother : ∀ n c, (m.heap a).getChild n = some c → (m.set a (visit now m.opt.dcacheTimeout)).heap c = m.heap c :=
    fun n c hc => heap_set_ne (Nat.ne_of_gt (hm.child a n c ha hc).1)
  obtain ⟨pushed, m', hrun, h⟩ := run_sweepChildren now hm₁ (show a < _ from ha)
    (fun e he => AList.mem_lookup_iff.mpr he) (AList.nodupKeys _)
  have hk : Inv m' ∧ Grow (m.set a (visit now m.opt.dcacheTimeout)) m' := by
    have hkept : Kept (sweepChildren now a ((m.set a (visit now m.opt.dcacheTimeout)).heap a).children.entries) :=
      kept_sweepChildren _
    have hend := hkept.endState hm₁ trivial
    rw [hrun] at hend
    exact hend
  refine ⟨pushed, m', ?_, hk.1, .trans (.set Mild.visit) hk.2, h.next, ?_, ?_, ?_, ?_, ?_, ?_, ?_, ?_, ?_⟩
  · have hget : (get : LocalM _) m = .ok m m := rfl
    rw [sweepLoop, bind_ok hget, bind_ok run_store, bind_ok run_load, bind_ok hrun]
  · intro n c
    rw [h.child, hchild, KeptChild]
    refine and_congr_right fun hc => ?_
    rw [hentries, hother n c hc]
    exact ⟨fun h => h hc, fun h _ => h⟩
  · rw [h.self.1, hself]
    exact visit_inode
  · rw [h.self.2.1, hself]
    exact visit_complete
  · rw [h.self.2.2, hself]
    exact visit_synced
  · rw [h.ttl, hself]
    exact visit_ttl
  · intro n c hc
    rw [h.kept ⟨n, c⟩ ((hentries n c).mpr hc.1) (by rw [hother n c hc.1]; exact hc.2), hother n c hc.1]
    rfl
  · intro b hb hnot
    rw [h.same b hb fun e he heb => ?_, heap_set_ne hb]
    have hc := (hentries e.1 e.2).mp he
    rw [heap_set_ne hb]
    rw [heb] at hc
    cases hs : (m.heap b).synced with
    | true => exact absurd ⟨hc, hs⟩ (hnot e.1)
    | false => rfl
  · rw [h.pushed]
    exact (hm₁.children_nodup (show a < _ from ha)).filter _
  · intro c
    rw [h.pushed, List.mem_filter, List.mem_map, Bool.and_eq_true]
    constructor
    · rintro ⟨⟨⟨n, d⟩, he, rfl⟩, hs, hd⟩
      have hc := (hentries n d).mp he
      rw [hother n d hc] at hs hd
      exact ⟨⟨n, hc, hs⟩, hd⟩
    · rintro ⟨⟨n, hc, hs⟩, hd⟩
      refine ⟨⟨⟨n, c⟩, (hentries n c).mpr hc, rfl⟩, ?_⟩
      rw [hother n c hc]
      exact ⟨hs, hd⟩

/-! ### The loop -/

/-- The directories that a sweep from `p` takes from its queue. -/
inductive Visited (m : LocalMemMeta) (p : Addr) : Addr → Prop where
  | start : Visited m p p
  | down {a c : Addr} {n : Str} (ha : Visited m p a) (hc : m.KeptChild a n c) (hd : (m.heap c).isDir = true) :
      Visited m p c

/-- A sweep from `p` meets only children with a mark. One without a mark is erased while the loop stands on it. -/
def NothingToSweep (m : LocalMemMeta) (p : Addr) : Prop :=
  ∀ d n ch, m.Visited p d → (m.heap d).getChild n = some ch → (m.heap ch).synced = true

/-- The dentries `vs` were taken from the queue, which now holds `queue`, since the loop began in `m₀` with `p`. -/
structure Sweeping (now : Timespec) (m₀ : LocalMemMeta) (p : Addr) (vs queue : List Addr) (m : LocalMemMeta) : Prop where
  inv : Inv m
  grow : Grow m₀ m
  next : m.heapNext = m₀.heapNext
  nodup : (vs ++ queue).Nodup
  first : p ∈ vs ++ queue
  visited : ∀ b ∈ vs ++ queue, m₀.Visited p b
  origin : ∀ b ∈ vs ++ queue, b = p ∨ ∃ v ∈ vs, ∃ n, (m₀.heap v).getChild n = some b
  closed : ∀ v ∈ vs, ∀ n c, m₀.KeptChild v n c → (m₀.heap c).isDir = true → c ∈ vs ++ queue
  child : ∀ v ∈ vs, ∀ n c, (m.heap v).getChild n = some c ↔ m₀.KeptChild v n c
  children : ∀ b, b ∉ vs → (m.heap b).children = (m₀.heap b).children
  inode : ∀ b, (m.heap b).inode = (m₀.heap b).inode
  synced : ∀ v ∈ vs, (m.heap v).synced = true
  ttl : ∀ v ∈ vs, (m.heap v).ttl = sweepTtl now m₀
  complete : ∀ v ∈ vs, (m.heap v).complete = ((m₀.heap v).complete || (m₀.heap v).childCount != 0)
  waiting : ∀ b, b ∉ vs → (m.heap b).complete = (m₀.heap b).complete ∨
    b ∈ queue ∧ (m.heap b).complete = ((m₀.heap b).complete || (m₀.heap b).childCount != 0)
  same : ∀ b, b ∉ vs → (∀ v ∈ vs, ∀ n, ¬ m₀.KeptChild v n b) → m.heap b = m₀.heap b

theorem Visited.allocated (hm : Inv m) (hp : p < m.heapNext) (h : m.Visited p a) : p ≤ a ∧ a < m.heapNext := by
  induction h with
  | start => exact ⟨Nat.le_refl _, hp⟩
  | down ha hc _ ih =>
    obtain ⟨hlt, hlt', -⟩ := hm.child _ _ _ ih.2 hc.1
    exact ⟨Nat.le_trans ih.1 (Nat.le_of_lt hlt), hlt'⟩

theorem Sweeping.start (hm : Inv m) : Sweeping now m p [] [p] m where
  inv := hm
  grow := .refl m
  next := rfl
  nodup := List.nodup_singleton p
  first := List.mem_singleton_self p
  visited _ hb := List.mem_singleton.mp hb ▸ .start
  origin _ hb := .inl (List.mem_singleton.mp hb)
  closed := nofun
  child := nofun
  children _ _ := rfl
  inode _ := rfl
  synced := nofun
  ttl := nofun
  complete := nofun
  waiting _ _ := .inl rfl
  same _ _ _ := rfl

theorem Sweeping.not_visited {vs queue : List Addr} (h : Sweeping now m₀ p vs (a :: queue) m) : a ∉ vs := fun hv =>
  (List.nodup_append.mp h.nodup).2.2 a hv a (List.mem_cons_self ..) rfl

/-- No child of the dentry that is taken was in the queue before, nor was it changed. -/
theorem Sweeping.child_untouched {vs queue : List Addr} (h : Sweeping now m₀ p vs (a :: queue) m) (hm₀ : Inv m₀)
    (hp : p < m₀.heapNext) (hc : (m₀.heap a).getChild n = some c) : c ∉ vs ++ a :: queue ∧ m.heap c = m₀.heap c := by
  have hmem : a ∈ vs ++ a :: queue := by simp
  obtain ⟨hpa, ha⟩ := (h.visited a hmem).allocated hm₀ hp
  obtain ⟨hac, -, -, hparent⟩ := hm₀.child a n c ha hc
  have hno : ∀ v ∈ vs, ∀ k, (m₀.heap v).getChild k ≠ some c := by
    intro v hv k hk
    have hlt := ((h.visited v (List.mem_append_left _ hv)).allocated hm₀ hp).2
    have hpar := (hm₀.child v k c hlt hk).2.2.2
    rw [hparent] at hpar
    cases hpar
    exact h.not_visited hv
  have hnot : c ∉ vs ++ a :: queue := by
    intro hcm
    rcases h.origin c hcm with rfl | ⟨v, hv, k, hk⟩
    · exact Nat.not_le.mpr hac hpa
    · exact hno v hv k hk
  exact ⟨hnot, h.same c (fun hv => hnot (List.mem_append_left _ hv)) fun v hv k hk => hno v hv k hk.1⟩

section
variable {vs queue pushed : List Addr} (h : Sweeping now m₀ p vs (a :: queue) m) (hm₀ : Inv m₀) (hp : p < m₀.heapNext)
include h hm₀ hp

/-- The marks of the children of `a` are still those from before the loop. -/
theorem Sweeping.keptChild : m.KeptChild a n c ↔ m₀.KeptChild a n c := by
  have hchild : (m.heap a).getChild n = (m₀.heap a).getChild n := by
    rw [Dentry.getChild, h.children a h.not_visited, Dentry.getChild]
  rw [KeptChild, KeptChild, hchild]
  refine and_congr_right fun hc => ?_
  rw [(h.child_untouched hm₀ hp hc).2]

variable (ht : Turn now a m m' pushed)
include ht

/-- What a turn puts into the queue. -/
theorem Sweeping.pushed_iff : c ∈ pushed ↔ (∃ k, m₀.KeptChild a k c) ∧ (m₀.heap c).isDir = true := by
  rw [ht.pushed]
  constructor
  · rintro ⟨⟨k, hk⟩, hd⟩
    have hk := (h.keptChild hm₀ hp).mp hk
    rw [(h.child_untouched hm₀ hp hk.1).2] at hd
    exact ⟨⟨k, hk⟩, hd⟩
  · rintro ⟨⟨k, hk⟩, hd⟩
    rw [← (h.child_untouched hm₀ hp hk.1).2] at hd
    exact ⟨⟨k, (h.keptChild hm₀ hp).mpr hk⟩, hd⟩

/-- What a turn leaves of the other dentries. -/
theorem Sweeping.turn_cases (hb : b ≠ a) : m'.heap b = m.heap b ∨ ∃ k, m₀.KeptChild a k b ∧
    m'.heap b = keepChild now m.opt.dcacheTimeout (m₀.heap b) := by
  by_cases hk : ∃ k, m.KeptChild a k b
  · obtain ⟨k, hk⟩ := hk
    have hk₀ := (h.keptChild hm₀ hp).mp hk
    refine .inr ⟨k, hk₀, ?_⟩
    rw [ht.kept k b hk, (h.child_untouched hm₀ hp hk₀.1).2]
  · exact .inl (ht.same b hb fun k hkb => hk ⟨k, hkb⟩)

/-- The dentries that were taken before stay. -/
theorem Sweeping.turn_visited (hv : b ∈ vs) : m'.heap b = m.heap b := by
  refine ht.same b (fun he => h.not_visited (he ▸ hv)) fun k hk => ?_
  exact (h.child_untouched hm₀ hp ((h.keptChild hm₀ hp).mp hk).1).1 (List.mem_append_left _ hv)

/-- The step lemma of the loop. -/
theorem Sweeping.turn : Sweeping now m₀ p (vs ++ [a]) (queue ++ pushed) m' := by
  have hmem : a ∈ vs ++ a :: queue := by simp
  have hav := h.not_visited
  have hsame : ∀ v ∈ vs, m'.heap v = m.heap v := fun v hv => h.turn_visited hm₀ hp ht hv
  have hpushed : ∀ c, c ∈ pushed ↔ (∃ k, m₀.KeptChild a k c) ∧ (m₀.heap c).isDir = true := fun c => h.pushed_iff hm₀ hp ht
  have hcases : ∀ b, b ≠ a → m'.heap b = m.heap b ∨ ∃ k, m₀.KeptChild a k b ∧
      m'.heap b = keepChild now m.opt.dcacheTimeout (m₀.heap b) := fun b hb => h.turn_cases hm₀ hp ht hb
  have hmem' : ∀ b, b ∈ vs ++ [a] ++ (queue ++ pushed) ↔ b ∈ vs ++ a :: queue ∨ b ∈ pushed := by
    intro b
    simp [or_assoc]
  have hsplit : ∀ b, b ∉ vs ++ [a] → b ∉ vs ∧ b ≠ a := by
    intro b hb
    simp only [List.mem_append, List.mem_singleton, not_or] at hb
    exact hb
  refine ⟨ht.inv, h.grow.trans ht.grow, ht.next.trans h.next, ?_, (hmem' p).mpr (.inl h.first), ?_, ?_, ?_, ?_, ?_, ?_, ?_, ?_, ?_, ?_, ?_⟩
  · rw [show vs ++ [a] ++ (queue ++ pushed) = vs ++ a :: queue ++ pushed by simp]
    refine List.nodup_append.mpr ⟨h.nodup, ht.nodup, ?_⟩
    rintro b hb c hc rfl
    obtain ⟨⟨k, hk⟩, -⟩ := (hpushed b).mp hc
    exact (h.child_untouched hm₀ hp hk.1).1 hb
  · intro b hb
    rcases (hmem' b).mp hb with hb | hb
    · exact h.visited b hb
    · obtain ⟨⟨k, hk⟩, hd⟩ := (hpushed b).mp hb
      exact .down (h.visited a hmem) hk hd
  · intro b hb
    rcases (hmem' b).mp hb with hb | hb
    · rcases h.origin b hb with rfl | ⟨v, hv, k, hk⟩
      · exact .inl rfl
      · exact .inr ⟨v, List.mem_append_left _ hv, k, hk⟩
    · obtain ⟨⟨k, hk⟩, -⟩ := (hpushed b).mp hb
      exact .inr ⟨a, by simp, k, hk.1⟩
  · intro v hv k c hk hd
    rw [hmem']
    rcases List.mem_append.mp hv with hv | hv
    · exact .inl (h.closed v hv k c hk hd)
    · rw [List.mem_singleton.mp hv] at hk
      exact .inr ((hpushed c).mpr ⟨⟨k, hk⟩, hd⟩)
  · intro v hv k c
    rcases List.mem_append.mp hv with hv | hv
    · rw [hsame v hv]
      exact h.child v hv k c
    · rw [List.mem_singleton.mp hv, ht.child, h.keptChild hm₀ hp]
  · intro b hb
    obtain ⟨hbv, hba⟩ := hsplit b hb
    rcases hcases b hba with he | ⟨k, hk, he⟩
    · rw [he, h.children b hbv]
    · rw [he, keepChild_children]
  · intro b
    by_cases hba : b = a
    · rw [hba, ht.inode, h.inode]
    · rcases hcases b hba with he | ⟨k, hk, he⟩
      · rw [he, h.inode]
      · rw [he, keepChild_inode]
  · intro v hv
    rcases List.mem_append.mp hv with hv | hv
    · rw [hsame v hv]
      exact h.synced v hv
    · rw [List.mem_singleton.mp hv]
      exact ht.synced
  · intro v hv
    rcases List.mem_append.mp hv with hv | hv
    · rw [hsame v hv]
      exact h.ttl v hv
    · rw [List.mem_singleton.mp hv, ht.ttl, sweepTtl, h.grow.opt, sweepTtl]
  · intro v hv
    rcases List.mem_append.mp hv with hv | hv
    · rw [hsame v hv]
      exact h.complete v hv
    · rw [List.mem_singleton.mp hv, ht.complete, Dentry.childCount, h.children a hav]
      rcases h.waiting a hav with he | ⟨-, he⟩
      · rw [he]
        rfl
      · rw [he, Bool.or_assoc]
        exact congrArg _ (Bool.or_self _)
  · intro b hb
    obtain ⟨hbv, hba⟩ := hsplit b hb
    rcases hcases b hba with he | ⟨k, hk, he⟩
    · rw [he]
      rcases h.waiting b hbv with hw | ⟨hq, hw⟩
      · exact .inl hw
      · rcases List.mem_cons.mp hq with hq | hq
        · exact absurd hq hba
        · exact .inr ⟨List.mem_append_left _ hq, hw⟩
    · rw [he, keepChild_complete]
      cases hd : (m₀.heap b).isDir with
      | false => exact .inl (Bool.or_false _)
      | true => exact .inr ⟨List.mem_append_right _ ((hpushed b).mpr ⟨⟨k, hk⟩, hd⟩), by rw [Bool.true_and]⟩
  · intro b hb hno
    obtain ⟨hbv, hba⟩ := hsplit b hb
    rcases hcases b hba with he | ⟨k, hk, -⟩
    · rw [he]
      exact h.same b hbv fun v hv => hno v (List.mem_append_left _ hv)
    · exact absurd hk (hno a (by simp) k)

end

/-- From `m` to `m'` a sweep from `p` was made. -/
structure Swept (p : Addr) (m m' : LocalMemMeta) : Prop where
  inv : Inv m'
  grow : Grow m m'
  next : m'.heapNext = m.heapNext
  child : ∀ a, m.Visited p a → ∀ n c, (m'.heap a).getChild n = some c ↔ m.KeptChild a n c
  children : ∀ a, ¬ m.Visited p a → (m'.heap a).children = (m.heap a).children
  inode : ∀ a, (m'.heap a).inode = (m.heap a).inode
  synced : ∀ a, m.Visited p a → (m'.heap a).synced = true
  complete : ∀ a, m.Visited p a → (m'.heap a).complete = ((m.heap a).complete || (m.heap a).childCount != 0)
  others : ∀ a, ¬ m.Visited p a → (m'.heap a).complete = (m.heap a).complete
  same : ∀ a, ¬ m.Visited p a → (∀ v, m.Visited p v → ∀ n, ¬ m.KeptChild v n a) → m'.heap a = m.heap a

theorem Sweeping.swept {vs : List Addr} (h : Sweeping now m₀ p vs [] m) : Swept p m₀ m := by
  have hclosed := h.closed
  have hfirst := h.first
  have hvisited := h.visited
  rw [List.append_nil] at hclosed hfirst hvisited
  have hmem : ∀ b, m₀.Visited p b → b ∈ vs := by
    intro b hb
    induction hb with
    | start => exact hfirst
    | down _ hc hd ih => exact hclosed _ ih _ _ hc hd
  have hnot : ∀ b, ¬ m₀.Visited p b → b ∉ vs := fun b hb hv => hb (hvisited b hv)
  refine ⟨h.inv, h.grow, h.next, fun a ha => h.child a (hmem a ha), fun a ha => h.children a (hnot a ha), h.inode,
    fun a ha => h.synced a (hmem a ha), fun a ha => h.complete a (hmem a ha), fun a ha => ?_, fun a ha hno =>
      h.same a (hnot a ha) fun v hv => hno v (hvisited v hv)⟩
  rcases h.waiting a (hnot a ha) with he | ⟨hq, -⟩
  · exact he
  · cases hq

theorem length_le_of_lt {l : List Addr} {k : Nat} (hl : l.Nodup) (h : ∀ b ∈ l, b < k) : l.length ≤ k := by
  have hsub : l.Subperm (List.range k) := List.subperm_of_subset hl fun b hb => List.mem_range.mpr (h b hb)
  simpa using hsub.length_le

/-- The run lemma: the size of the heap is fuel enough. -/
theorem Sweeping.run {vs queue : List Addr} (h : Sweeping now m₀ p vs queue m) (hm₀ : Inv m₀) (hp : p < m₀.heapNext)
    (fuel : Nat) (hfuel : m₀.heapNext ≤ fuel + vs.length) :
    ∃ vs m', sweepLoop now fuel queue m = .ok () m' ∧ Sweeping now m₀ p vs [] m' := by
  induction fuel generalizing vs queue m with
  | zero =>
    cases queue with
    | nil => exact ⟨vs, m, rfl, h⟩
    | cons a queue =>
      have hle := length_le_of_lt h.nodup fun b hb => ((h.visited b hb).allocated hm₀ hp).2
      rw [List.length_append, List.length_cons] at hle
      have := Nat.le_trans hle hfuel
      omega
  | succ fuel ih =>
    cases queue with
    | nil => exact ⟨vs, m, rfl, h⟩
    | cons a queue =>
      have ha : a < m.heapNext := by
        rw [h.next]
        exact ((h.visited a (by simp)).allocated hm₀ hp).2
      obtain ⟨pushed, m', hrun, ht⟩ := run_turn now h.inv ha fuel queue
      rw [hrun]
      refine ih (h.turn hm₀ hp ht) ?_
      rw [List.length_append, List.length_singleton]
      exact Nat.le_trans hfuel (by omega)

/-- A sweep always ends, and sets the expiry time of the directory it begins with. -/
theorem run_clearUnsyncDentry_ttl (now : Timespec) (hm : Inv m) (hp : p < m.heapNext) :
    ∃ m', clearUnsyncDentry now p m = .ok () m' ∧ Swept p m m' ∧ (m'.heap p).ttl = sweepTtl now m := by
  have hstart : Sweeping now m p [] [p] m := .start hm
  obtain ⟨vs, m', hrun, h⟩ := hstart.run hm hp m.heapNext (Nat.le_add_right _ _)
  have hfirst := h.first
  rw [List.append_nil] at hfirst
  exact ⟨m', hrun, h.swept, h.ttl p hfirst⟩

theorem run_clearUnsyncDentry (now : Timespec) (hm : Inv m) (hp : p < m.heapNext) :
    ∃ m', clearUnsyncDentry now p m = .ok () m' ∧ Swept p m m' := by
  obtain ⟨m', hrun, hs, -⟩ := run_clearUnsyncDentry_ttl now hm hp
  exact ⟨m', hrun, hs⟩

end LocalMemMeta

end Catfs
