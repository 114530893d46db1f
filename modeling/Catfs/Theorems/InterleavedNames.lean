import Catfs.Theorems.Effects
import Catfs.Theorems.Interleaved
import Catfs.Theorems.Namespace

/-! # The namespace while requests run at the same time

Each step of a request does to the map of the entries what its label says (`Names.Takes`), whatever steps of others come
before it, so that every interleaving of requests is a run of the plain namespace (`interleaved_names`). On such a run a
number belongs to one path for good (`numbers_stay`). -/

namespace Catfs

open Lib MetaM LocalMemMeta
open EStateM (Result)

/-! ### What the steps are for -/

namespace Names

/-- `Q` is a path directly below the entry with the number `ino`. -/
def Below (s : Names) (ino : InodeID) (Q : List Str) : Prop := ∃ P n, s.At ino P ∧ Q = P ++ [n]

/-- A listing of the directory `ino` is merged: entries come in directly below it, under new numbers. What was there
    keeps its number and its mode, and its size when it is not listed. -/
structure Merges (s : Names) (ino : InodeID) (s' : Names) : Prop where
  kept : ∀ Q i, s.entries Q = some i → ∃ j, s'.entries Q = some j ∧ j.ino = i.ino ∧ j.mode = i.mode ∧
    (j.size = i.size ∨ s.Below ino Q)
  added : ∀ Q j, s'.entries Q = some j → s.entries Q = none → ¬ s.known j.ino ∧ s.Below ino Q
  known : ∀ i, s.known i → s'.known i

/-- Entries below the path `P` are taken away. -/
structure Trims (s : Names) (P : List Str) (s' : Names) : Prop where
  left : ∀ Q, s'.entries Q = s.entries Q ∨ s'.entries Q = none ∧ ∃ n R, Q = P ++ n :: R
  known : s'.known = s.known

end Names

/-- The number of the entry that a step is about, where `number` has the number of the dentry at each address. -/
def MetaAct.target (number : Addr → InodeID) : MetaAct → Option InodeID
  | .insert pino _ | .erase pino _ => some pino
  | .update ino _ => some ino
  | .sweep a => some (number a)
  | _ => none

namespace Names
variable {number number' : Addr → InodeID} {s s' s'' : Names} {l : MetaAct} {ls : List MetaAct} {ino k : InodeID} {P Q : List Str}

/-- What a step does to the names. -/
inductive Takes (number : Addr → InodeID) : MetaAct → Names → Names → Prop where
  | look {l : MetaAct} {s : Names} (h : MetaImpl.looks l = true) : Takes number l s s
  | touch {a : Addr} {s : Names} : Takes number (.touch a) s s
  /-- What has this number is no entry. -/
  | aside {l : MetaAct} {s s' : Names} {ino : InodeID} (htarget : l.target number = some ino) (hdet : ∀ P, ¬ s.At ino P)
      (hsame : s'.entries = s.entries) (hgrow : ∀ i, s.known i → s'.known i) : Takes number l s s'
  | insert {s : Names} {pino : InodeID} {name : Str} {inode : Inode} {P : List Str} (h : s.At pino P)
      (hfresh : ¬ s.known inode.ino) : Takes number (.insert pino name) s (s.enter (P ++ [name]) inode)
  | erase {s : Names} {pino : InodeID} {name : Str} {P : List Str} (h : s.At pino P) :
      Takes number (.erase pino name) s { s with entries := s.entries.prune (P ++ [name]) }
  | update {s : Names} {ino : InodeID} {u : InodeUpdateAttr} {P : List Str} (h : s.At ino P) :
      Takes number (.update ino u) s { s with entries := s.entries.modify P (updated u) }
  | build {s s' : Names} {ino : InodeID} {names : List Str} (h : s.Merges ino s') : Takes number (.build ino names) s s'
  | sweep {s s' : Names} {a : Addr} {P : List Str} (h : s.At (number a) P) (htrims : s.Trims P s') : Takes number (.sweep a) s s'

/-- Steps with the labels `ls`, one after the other. -/
inductive History (number : Addr → InodeID) : Names → List MetaAct → Names → Prop where
  | start {s : Names} : History number s [] s
  | step {s s' s'' : Names} {l : MetaAct} {ls : List MetaAct} (h : History number s ls s') (hl : Takes number l s' s'') :
      History number s (ls ++ [l]) s''

/-! ### Numbers keep their paths -/

theorem Takes.known (h : Takes number l s s') (hk : s.known k) : s'.known k := by
  cases h with
  | look | touch | erase | update => exact hk
  | aside _ _ _ hgrow => exact hgrow k hk
  | insert => exact .inr hk
  | build h => exact h.known k hk
  | sweep _ h => exact h.known ▸ hk

/-- A number that was known before a step is after it nowhere but where it was. -/
theorem Takes.traced (h : Takes number l s s') (hk : s.known k) (hat : s'.At k Q) : s.At k Q := by
  obtain ⟨j, hj, rfl⟩ := hat
  cases h with
  | look | touch => exact ⟨j, hj, rfl⟩
  | aside _ _ hsame => exact ⟨j, hsame ▸ hj, rfl⟩
  | insert _ hfresh =>
    simp only [enter, Namespace.graft] at hj
    split at hj
    · split at hj
      · obtain rfl := Option.some.inj hj
        exact absurd hk hfresh
      · cases hj
    · exact ⟨j, hj, rfl⟩
  | erase =>
    simp only [Namespace.prune] at hj
    split at hj
    · cases hj
    · exact ⟨j, hj, rfl⟩
  | update =>
    simp only [Namespace.modify] at hj
    split at hj
    · obtain ⟨i, hi, rfl⟩ := Option.map_eq_some_iff.mp hj
      exact ⟨i, hi, rfl⟩
    · exact ⟨j, hj, rfl⟩
  | build h =>
    cases hi : s.entries Q with
    | none => exact absurd hk (h.added Q j hj hi).1
    | some i =>
      obtain ⟨j', hj', hino, -⟩ := h.kept Q i hi
      obtain rfl := Option.some.inj (hj.symm.trans hj')
      exact ⟨i, hi, hino.symm⟩
  | sweep _ h =>
    rcases h.left Q with hsame | ⟨hnone, -⟩
    · exact ⟨j, hsame ▸ hj, rfl⟩
    · rw [hnone] at hj
      cases hj

theorem History.known (h : History number s ls s') (hk : s.known k) : s'.known k := by
  induction h with
  | start => exact hk
  | step _ hl ih => exact hl.known ih

theorem History.traced (h : History number s ls s') (hk : s.known k) (hat : s'.At k Q) : s.At k Q := by
  induction h with
  | start => exact hat
  | step h hl ih => exact ih (hl.traced (h.known hk) hat)

end Names

/-! ### The steps of the cache -/

namespace LocalMemMeta
variable {m m' : LocalMemMeta} {a p : Addr} {ino : InodeID} {P Q : List Str} {nodes : List FTreeNode}

theorem entries_same (hroot : m'.rootDentry = m.rootDentry) (hchildren : ∀ a, (m'.heap a).children = (m.heap a).children)
    (hinode : ∀ a, (m'.heap a).inode = (m.heap a).inode) : m'.entries = m.entries := by
  rw [entries, hroot]
  exact paths_congr (fun a n _ => by rw [Dentry.getChild, hchildren, Dentry.getChild]) fun a _ => hinode a

theorem entries_walk (h : m.walkFrom P = some a) : m.entries P = some (m.heap a).inode := paths_eq_some.mpr ⟨a, h, rfl⟩

/-- After a merge a path leads where it led before, or to a new child of the directory. -/
theorem walk_built (hm : Inv m) (hb : Built p nodes m m') (h : m'.walkFrom Q = some a) :
    m.walkFrom Q = some a ∨ m.heapNext ≤ a ∧ ∃ P n, m.walkFrom P = some p ∧ Q = P ++ [n] := by
  have hroot := hb.grow.root
  induction Q using List.reverseRecOn generalizing a with
  | nil =>
    rw [walkFrom, hroot] at h
    exact .inl h
  | append_singleton Q n ih =>
    obtain ⟨b, hw, hc⟩ := walk_concat_some h
    rcases ih hw with hold | ⟨hnew, -⟩
    · have hlt := walk_allocated hm hold
      have hkeep : (m.heap b).getChild n = some a → m.walkFrom (Q ++ [n]) = some a := by
        intro hchild
        rw [walkFrom, walk_concat, show Lib.walk _ _ Q = _ from hold]
        exact hchild
      by_cases hbp : b = p
      · subst hbp
        rcases hb.origin n a hc with hchild | ⟨hfresh, -⟩
        · exact .inl (hkeep hchild)
        · exact .inr ⟨hfresh, Q, n, hold, rfl⟩
      · rw [Dentry.getChild, hb.others b hlt hbp] at hc
        exact .inl (hkeep hc)
    · -- a new dentry has no children
      have hempty := (hb.fresh b hnew (walk_allocated hb.inv hw)).1
      rw [Dentry.getChild, hempty] at hc
      cases hc

theorem walk_of_built (hm : Inv m) (hb : Built p nodes m m') (h : m.walkFrom Q = some a) : m'.walkFrom Q = some a := by
  rw [walkFrom, hb.grow.root]
  refine walk_mono (fun a n c hreached hc => ?_) h
  obtain ⟨R, hR⟩ := hreached
  have hlt := walk_allocated hm hR
  by_cases hap : a = p
  · subst hap
    exact hb.child n c hc
  · rw [Dentry.getChild, hb.others a hlt hap]
    exact hc

theorem merges_built (hm : Inv m) (hp : m.lookup ino = some p) (hb : Built p nodes m m') : m.names.Merges ino m'.names := by
  have hbelow : ∀ P n, m.walkFrom P = some p → m.names.Below ino (P ++ [n]) := fun P n hP =>
    ⟨P, n, ⟨_, entries_walk hP, (hm.indexed _ _ hp).2⟩, rfl⟩
  refine ⟨fun Q i hi => ?_, fun Q j hj hnone => ?_, fun i ⟨a, ha⟩ => ⟨a, hb.grow.index _ _ ha⟩⟩
  · obtain ⟨a, ha, rfl⟩ := paths_eq_some.mp hi
    have hlt := walk_allocated hm ha
    refine ⟨_, entries_walk (walk_of_built hm hb ha), hb.grow.ino a hlt, (hb.same a hlt).1, (hb.size a hlt).imp id ?_⟩
    rintro ⟨node, -, hchild, -⟩
    -- a listed child stands below the directory only
    rcases List.eq_nil_or_concat Q with rfl | ⟨R, n, rfl⟩
    · obtain rfl := Option.some.inj ha
      have hlow := (hm.child p _ _ hb.alloc hchild).1
      rw [hm.root] at hlow
      exact absurd hlow (Nat.not_lt_zero _)
    · rw [List.concat_eq_append] at ha ⊢
      obtain ⟨b, hw, hc⟩ := walk_concat_some ha
      have hparent := (hm.child b n a (walk_allocated hm hw) hc).2.2.2
      obtain rfl : b = p := Option.some.inj (hparent.symm.trans (hm.child p _ a hb.alloc hchild).2.2.2)
      exact hbelow R n hw
  · obtain ⟨a, ha, rfl⟩ := paths_eq_some.mp hj
    rcases walk_built hm hb ha with hold | ⟨hnew, P, n, hP, rfl⟩
    · rw [show m.names.entries Q = _ from entries_walk hold] at hnone
      cases hnone
    · refine ⟨fun ⟨b, hlookup⟩ => ?_, hbelow P n hP⟩
      have hindex := hb.inv.index a (walk_allocated hb.inv ha)
      rw [hb.grow.index _ _ hlookup] at hindex
      obtain rfl := Option.some.inj hindex
      exact absurd (hm.indexed _ _ hlookup).1 (Nat.not_lt.mpr hnew)

/-- A directory that the sweep reaches is below the one it began with. -/
theorem Visited.under (hm : Inv m) (hp : p < m.heapNext) (h : m.Visited p a) (hQ : m.walkFrom Q = some a) :
    ∃ P R, m.walkFrom P = some p ∧ Q = P ++ R := by
  induction h generalizing Q with
  | start => exact ⟨Q, [], hQ, by simp⟩
  | @down b c n hv hc _ ih =>
    have hb := (hv.allocated hm hp).2
    obtain ⟨hlt, -, -, hparent⟩ := hm.child b n c hb hc.1
    rcases List.eq_nil_or_concat Q with rfl | ⟨S, k, rfl⟩
    · obtain rfl := Option.some.inj hQ
      rw [hm.root] at hlt
      exact absurd hlt (Nat.not_lt_zero _)
    · rw [List.concat_eq_append] at hQ ⊢
      obtain ⟨b', hw, hc'⟩ := walk_concat_some hQ
      have hparent' := (hm.child b' k c (walk_allocated hm hw) hc').2.2.2
      obtain rfl : b = b' := Option.some.inj (hparent.symm.trans hparent')
      obtain ⟨P, R, hP, rfl⟩ := ih hw
      exact ⟨P, R ++ [k], hP, List.append_assoc ..⟩

theorem walk_of_swept (hs : Swept p m m') (h : m'.walkFrom Q = some a) : m.walkFrom Q = some a := by
  rw [walkFrom, hs.grow.root] at h
  refine walk_mono (fun a n c _ hc => ?_) h
  by_cases hv : m.Visited p a
  · exact ((hs.child a hv n c).mp hc).1
  · rwa [Dentry.getChild, hs.children a hv] at hc

/-- A path that the sweep ends leads below the directory it began with. -/
theorem walk_swept (hm : Inv m) (hp : p < m.heapNext) (hs : Swept p m m') (h : m.walkFrom Q = some a) :
    m'.walkFrom Q = some a ∨ ∃ P n R, m.walkFrom P = some p ∧ Q = P ++ n :: R := by
  induction Q using List.reverseRecOn generalizing a with
  | nil =>
    rw [walkFrom, hs.grow.root]
    exact .inl h
  | append_singleton Q k ih =>
    obtain ⟨b, hw, hc⟩ := walk_concat_some h
    rcases ih hw with hold | ⟨P, n, R, hP, rfl⟩
    · by_cases hv : m.Visited p b
      · obtain ⟨P, R, hP, rfl⟩ := Visited.under hm hp hv hw
        cases R with
        | nil => exact .inr ⟨P, k, [], hP, by simp⟩
        | cons n R => exact .inr ⟨P, n, R ++ [k], hP, by simp⟩
      · refine .inl ?_
        rw [walkFrom, walk_concat, show Lib.walk _ _ Q = _ from hold, Option.bind_some, Dentry.getChild, hs.children b hv]
        exact hc
    · exact .inr ⟨P, n, R ++ [k], hP, by simp⟩

theorem known_swept (hm : Inv m) (hs : Swept p m m') : m'.names.known = m.names.known := by
  funext i
  refine propext ⟨fun ⟨a, ha⟩ => ?_, fun ⟨a, ha⟩ => ⟨a, hs.grow.index _ _ ha⟩⟩
  obtain ⟨hlt, hino⟩ := hs.inv.indexed _ _ ha
  rw [hs.next] at hlt
  rw [hs.inode] at hino
  exact ⟨a, hino ▸ hm.index a hlt⟩

/-- A sweep takes entries away below the directory it begins with, and none when that has no path. -/
theorem entries_swept (hm : Inv m) (hp : p < m.heapNext) (hs : Swept p m m') (Q : List Str) :
    m'.entries Q = m.entries Q ∨ m'.entries Q = none ∧ ∃ P n R, m.walkFrom P = some p ∧ Q = P ++ n :: R := by
  cases hQ' : m'.walkFrom Q with
  | some a => exact .inl (by rw [entries_walk hQ', entries_walk (walk_of_swept hs hQ'), hs.inode])
  | none =>
    have hnone : m'.entries Q = none := by rw [entries, paths, show Lib.walk _ _ Q = _ from hQ']; rfl
    cases hQ : m.walkFrom Q with
    | none => exact .inl (by rw [hnone, entries, paths, show Lib.walk _ _ Q = _ from hQ]; rfl)
    | some a =>
      rcases walk_swept hm hp hs hQ with h | h
      · rw [hQ'] at h
        cases h
      · exact .inr ⟨hnone, h⟩

theorem trims_swept (hm : Inv m) (hp : p < m.heapNext) (hs : Swept p m m') (hP : m.walkFrom P = some p) :
    m.names.Trims P m'.names := by
  refine ⟨fun Q => (entries_swept hm hp hs Q).imp id ?_, known_swept hm hs⟩
  rintro ⟨hnone, P', n, R, hP', rfl⟩
  obtain rfl := unambiguous hm P P' p hP hP'
  exact ⟨hnone, n, R, rfl⟩

theorem entries_swept_detached (hm : Inv m) (hp : p < m.heapNext) (hs : Swept p m m') (hatt : ¬ Attached m p) :
    m'.entries = m.entries := by
  funext Q
  rcases entries_swept hm hp hs Q with h | ⟨-, P, n, R, hP, -⟩
  · exact h
  · exact absurd (attached_of_walk hP) hatt

end LocalMemMeta

namespace MetaImpl
variable {ι σ : Type} {opt : ι → MetaOpt} {st : Stor σ} {fuel : ι → Nat} {reqs : ι → Request} {s : World σ} {l : MetaAct}
  {now : Timespec} {m m' : LocalMemMeta} {number : Addr → InodeID}

/-- The number of the dentry at each address that was handed out. -/
def Numbers (number : Addr → InodeID) (m : LocalMemMeta) : Prop := ∀ a < m.heapNext, number a = (m.heap a).inode.ino

/-- A dentry keeps its number. -/
theorem Numbers.before (h : Numbers number m') (hg : Grow m m') : Numbers number m := fun a ha => by
  rw [h a (Nat.lt_of_lt_of_le ha hg.next), hg.ino a ha]

/-- A step on an entry by its number, which the entry with this number is at the path of, or nothing is. -/
theorem takes_target {ino : InodeID} {p : Addr} (hm : m.Inv) (hp : m.lookup ino = some p) (htarget : l.target number = some ino)
    (hgrow : Grow m m') (hat : ∀ P, m.walkFrom P = some p → m.names.At ino P → Names.Takes number l m.names m'.names)
    (hdet : ¬ Attached m p → m'.entries = m.entries) : Names.Takes number l m.names m'.names := by
  rcases at_or_detached hm hp with ⟨P, hP, hP'⟩ | ⟨hatt, hnone⟩
  · exact hat P hP hP'
  · exact .aside htarget hnone (hdet hatt) fun i ⟨a, ha⟩ => ⟨a, hgrow.index _ _ ha⟩

/-- The step lemma: a step of a request does to the names what its label says. -/
theorem Changes.takes (hm : m.Inv) (hnumber : Numbers number m) (h : Changes l now m m') : Names.Takes number l m.names m'.names := by
  have hgrow := (h.keeps hm).2
  have hunknown : ∀ {ino}, l.target number = some ino → m.lookup ino = none → m'.entries = m.entries →
      Names.Takes number l m.names m'.names := by
    intro ino htarget hnone hsame
    refine .aside htarget (fun P ⟨i, hi, hino⟩ => ?_) hsame fun i ⟨a, ha⟩ => ⟨a, hgrow.index _ _ ha⟩
    obtain ⟨a, ha, -⟩ := walk_of_entry hm hi
    rw [hino, hnone] at ha
    cases ha
  cases l with
  | insert pino name =>
    rcases h with ⟨p, inode, hp, hino, rfl⟩ | ⟨hnone, h⟩
    · have halloc := (hm.indexed _ _ hp).1
      have hfresh : ¬ m.issue.names.known inode.ino := not_known (hino ▸ hm.fresh) hm.issue
      refine takes_target hm hp rfl hgrow (fun P hP hat => ?_) fun hatt => ?_
      · rw [names_link (m := m.issue) hm.issue halloc hP]
        exact .insert (s := m.issue.names) hat hfresh
      · have hatt' : ¬ Attached m.issue p := fun h => hatt (attached_issue.mp h)
        exact entries_link_detached hm.issue hatt'
    · refine hunknown rfl hnone ?_
      rcases h with rfl | rfl <;> rfl
  | erase pino name =>
    rcases h with ⟨p, hp, rfl⟩ | ⟨hnone, rfl⟩
    · refine takes_target hm hp rfl hgrow (fun P hP hat => ?_) entries_set_detached
      have hnames : (m.set p fun d => { d with children := d.children.erase name }).names =
          { m.names with entries := m.names.entries.prune (P ++ [name]) } := congrArg (Names.mk · _) (entries_erase hm hP)
      rw [hnames]
      exact .erase hat
    · exact hunknown rfl hnone rfl
  | touch a =>
    obtain ⟨t, -, rfl⟩ := h
    have hentries : (m.set a (·.incTtl now t)).entries = m.entries := by
      refine entries_same rfl (fun b => ?_) fun b => ?_ <;> by_cases hb : b = a
      · rw [hb, heap_set_self]; rfl
      · rw [heap_set_ne hb]
      · rw [hb, heap_set_self]; rfl
      · rw [heap_set_ne hb]
    have hnames : (m.set a (·.incTtl now t)).names = m.names := congrArg (Names.mk · _) hentries
    rw [hnames]
    exact .touch
  | update ino u =>
    rcases h with ⟨p, hp, rfl⟩ | ⟨hnone, rfl⟩
    · refine takes_target hm hp rfl hgrow (fun P hP hat => ?_) entries_set_detached
      have hnames : (m.set p (InodeUpdateAttr.apply u)).names =
          { m.names with entries := m.names.entries.modify P (Names.updated u) } := congrArg (Names.mk · _) (entries_apply hm hP)
      rw [hnames]
      exact .update hat
    · exact hunknown rfl hnone rfl
  | build ino names =>
    rcases h with ⟨p, nodes, hp, hb⟩ | ⟨-, rfl⟩
    · exact .build (merges_built hm hp hb)
    · refine .build ⟨fun Q i hi => ⟨i, hi, rfl, rfl, .inl rfl⟩, fun Q j hj hnone => ?_, fun i hi => hi⟩
      rw [hj] at hnone
      cases hnone
  | sweep a =>
    have hlookup : m.lookup (number a) = some a := hnumber a h.1 ▸ hm.index a h.1
    exact takes_target hm hlookup rfl hgrow (fun P hP hat => .sweep hat (trims_swept hm h.1 h.2.1 hP))
      (entries_swept_detached hm h.1 h.2.1)
  | _ =>
    obtain rfl : m' = m := h
    exact .look rfl

/-! ### The runs -/

variable {x y z : Pool ι MetaAct Err (World σ) Unit}

/-- The labels of the steps that were taken. -/
abbrev labels (x : Pool ι MetaAct Err (World σ) Unit) : List MetaAct := x.conf.past.map fun e => e.2.1

/-- What the threads will do changes the cache as the labels allow. -/
abbrev Acting (x : Pool ι MetaAct Err (World σ) Unit) : Prop :=
  Pool.Moving CacheGrow (fun l s s' => True ∧ Effect l s s') CacheInv (fun _ _ _ => True) x

theorem acting_requests : Acting (requestPool opt st fuel reqs s) := fun i =>
  ⟨fun _ => True, Prog.persists_true, trivial, acts_request (fun _ => trivial) (reqs i)⟩

variable [DecidableEq ι]

/-- The run lemma. -/
theorem history_runs (hx : Acting x) (hs : CacheInv x.conf.state) (h : Pool.Runs (fun _ _ _ => True) CacheStays x y) :
    Acting y ∧ CacheInv y.conf.state ∧ ∀ number, Numbers number y.conf.state.cache → ∃ ls, labels y = labels x ++ ls ∧
      Names.History number x.conf.state.cache.names ls y.conf.state.cache.names := by
  have hrun : (CacheInv y.conf.state ∧ ∀ number, Numbers number y.conf.state.cache → ∃ ls, labels y = labels x ++ ls ∧
      Names.History number x.conf.state.cache.names ls y.conf.state.cache.names) ∧ Acting y := by
    refine Pool.invariant (J := fun z => CacheInv z.state ∧ ∀ number, Numbers number z.state.cache →
        ∃ ls, (z.past.map fun e => e.2.1) = labels x ++ ls ∧
          Names.History number x.conf.state.cache.names ls z.state.cache.names)
      (fun _ hz => hz.1) ?_ ?_ hx ⟨hs, fun _ _ => ⟨[], by simp, .start⟩⟩ h
    · rintro i l z s' ⟨hinv, hpast⟩ - ⟨-, heffect, -⟩
      obtain ⟨hinv', hgrow⟩ := heffect.keeps hinv
      refine ⟨⟨hinv', fun number hnumber => ?_⟩, hgrow⟩
      obtain ⟨ls, hls, hhist⟩ := hpast number (hnumber.before hgrow)
      exact ⟨ls ++ [l], by simp [Conf.after, hls], hhist.step (heffect.takes hinv (hnumber.before hgrow))⟩
    · rintro z s' ⟨hinv, hpast⟩ he
      have hgrown := grown_of_eq hinv he
      refine ⟨⟨hgrown.after, ?_⟩, hgrown.grow⟩
      rw [show s'.cache = z.state.cache from he]
      exact hpast
  exact ⟨hrun.2, hrun.1.1, hrun.1.2⟩

/-- The refinement holds whatever runs beside a request: every interleaving of requests, with any clock, over any store
    that answers anything and fails at any step, is a run of the plain namespace by the labels of the steps taken. A sweep
    is known by the number of its dentry. -/
theorem interleaved_names (hs : CacheInv s)
    (h : Pool.Runs (fun _ _ _ => True) CacheStays (requestPool opt st fuel reqs s) y) :
    Names.History (fun a => (y.conf.state.cache.heap a).inode.ino) s.cache.names (y.conf.past.map fun e => e.2.1)
        y.conf.state.cache.names ∧
      {P | y.conf.state.cache.entries P ≠ none}.Finite := by
  obtain ⟨-, hinv, hhist⟩ := history_runs acting_requests hs h
  obtain ⟨ls, hls, hhist⟩ := hhist _ fun a _ => rfl
  have hls' : (y.conf.past.map fun e => e.2.1) = ls := hls
  exact ⟨hls' ▸ hhist, entries_finite hinv⟩

theorem interleaved_names_both : ∃ y, Pool.Runs (fun _ _ _ => True) CacheStays bothRequests y ∧
    Names.History (fun a => (y.conf.state.cache.heap a).inode.ino) newCache.names (y.conf.past.map fun e => e.2.1) y.conf.state.cache.names ∧
      {P | y.conf.state.cache.entries P ≠ none}.Finite := by
  obtain ⟨y, hy, -⟩ := both_end
  have hruns : Pool.Runs (fun _ _ _ => True) CacheStays (requestPool (fun _ => ⟨0, 0, 60⟩) (s3Stor Log.client) (fun _ => 1)
      createAndRemove (newWorld [])) y := Pool.runs_exec (fun _ _ _ _ => trivial) hy
  exact ⟨y, hruns, interleaved_names (show CacheInv (newWorld []) from .new ⟨0, 0, 60⟩ ⟨0, 0⟩) hruns⟩

/-- An inode number belongs to one path for good: when an entry has the number of one that was seen at the path `P`
    earlier, it is at `P`, and was there all the time in between. -/
theorem numbers_stay (hs : CacheInv s) (hx : Pool.Runs (fun _ _ _ => True) CacheStays (requestPool opt st fuel reqs s) x)
    (hxy : Pool.Runs (fun _ _ _ => True) CacheStays x y) (hyz : Pool.Runs (fun _ _ _ => True) CacheStays y z)
    {P Q : List Str} {i j : Inode} (hP : x.conf.state.cache.entries P = some i) (hQ : z.conf.state.cache.entries Q = some j)
    (hij : j.ino = i.ino) : Q = P ∧ ∃ k, y.conf.state.cache.entries P = some k ∧ k.ino = i.ino := by
  obtain ⟨hax, hinvx, -⟩ := history_runs acting_requests hs hx
  obtain ⟨hay, hinvy, hhist⟩ := history_runs hax hinvx hxy
  obtain ⟨-, -, hhist'⟩ := history_runs hay hinvy hyz
  obtain ⟨ls, -, hhist⟩ := hhist _ fun a _ => rfl
  obtain ⟨ls', -, hhist'⟩ := hhist' _ fun a _ => rfl
  obtain ⟨a, ha, hwalk, -⟩ := walk_of_entry hinvx hP
  have hknown : x.conf.state.cache.names.known i.ino := ⟨a, ha⟩
  have hy : y.conf.state.cache.names.At i.ino Q := hhist'.traced (hhist.known hknown) ⟨j, hQ, hij⟩
  obtain ⟨k, hk, hkino⟩ := hhist.traced hknown hy
  obtain ⟨b, hb, hwalk', -⟩ := walk_of_entry hinvx hk
  rw [hkino, ha] at hb
  obtain rfl := Option.some.inj hb
  obtain rfl := unambiguous hinvx P Q a hwalk hwalk'
  exact ⟨rfl, hy⟩

/-- The file has an entry with the number 2. -/
def filed (x : Pool Bool MetaAct Err (World Log) Unit) : Bool := (x.conf.state.cache.entries [['f']]).map Inode.ino = some 2

/-- The removal has begun again when the file was created, and has not yet erased it. -/
theorem both_filed : ∃ x, bothRequests.exec (fun _ _ _ => true) ([true] ++ List.replicate 13 false) = some x ∧
    (filed x && (x.exec (fun _ _ _ => true) [true, true, true]).any filed) = true := (Option.any_eq_true _ _).mp (by decide +kernel)

theorem numbers_stay_both : ∃ x z i j, Pool.Runs (fun _ _ _ => True) CacheStays bothRequests x ∧
    Pool.Runs (fun _ _ _ => True) CacheStays x z ∧ x.conf.state.cache.entries [['f']] = some i ∧
    z.conf.state.cache.entries [['f']] = some j ∧ j.ino = i.ino ∧ [['f']] = [['f']] ∧
    ∃ k, x.conf.state.cache.entries [['f']] = some k ∧ k.ino = i.ino := by
  obtain ⟨x, hx, hall⟩ := both_filed
  obtain ⟨hfirst, hlast⟩ := (Bool.and_eq_true _ _).mp hall
  obtain ⟨z, hz, hfiled⟩ := (Option.any_eq_true _ _).mp hlast
  obtain ⟨i, hi, hi2⟩ := Option.map_eq_some_iff.mp (of_decide_eq_true hfirst)
  obtain ⟨j, hj, hj2⟩ := Option.map_eq_some_iff.mp (of_decide_eq_true hfiled)
  have hrunsx : Pool.Runs (fun _ _ _ => True) CacheStays (requestPool (fun _ => ⟨0, 0, 60⟩) (s3Stor Log.client) (fun _ => 1)
      createAndRemove (newWorld [])) x := Pool.runs_exec (fun _ _ _ _ => trivial) hx
  have hrunsz : Pool.Runs (fun _ _ _ => True) CacheStays x z := Pool.runs_exec (fun _ _ _ _ => trivial) hz
  exact ⟨x, z, i, j, hrunsx, hrunsz, hi, hj, hj2.trans hi2.symm,
    numbers_stay (show CacheInv (newWorld []) from .new ⟨0, 0, 60⟩ ⟨0, 0⟩) hrunsx .refl hrunsz hi hj (hj2.trans hi2.symm)⟩

end MetaImpl

end Catfs
