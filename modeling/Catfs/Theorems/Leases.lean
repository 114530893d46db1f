import Catfs.Theorems.Browsing
import Catfs.Theorems.CheckedCreate
import Catfs.Theorems.InterleavedNames
import Catfs.Theorems.StaleListing

/-! # How often the store is asked for an entry

When an entry was asked for at a time `t`, its ttl holds until `t` plus the timeout, whatever other requests do meanwhile.
A request that checks the entry before then does not ask the store for it (`revalidations_apart`). -/

namespace Catfs

open Lib MetaM LocalMemMeta
open EStateM (Result)

/-! ### Times -/

namespace Timespec
variable {a b c now : Timespec} {n : Nat}

def AtMost (a b : Timespec) : Prop := a.sec < b.sec ∨ a.sec = b.sec ∧ a.nsec ≤ b.nsec

theorem AtMost.refl : a.AtMost a := .inr ⟨rfl, Nat.le_refl _⟩

theorem AtMost.trans (h : a.AtMost b) (h' : b.AtMost c) : a.AtMost c := by
  rcases h with h | ⟨h, hn⟩ <;> rcases h' with h' | ⟨h', hn'⟩
  · exact .inl (Nat.lt_trans h h')
  · exact .inl (h' ▸ h)
  · exact .inl (h ▸ h')
  · exact .inr ⟨h.trans h', Nat.le_trans hn hn'⟩

theorem AtMost.plus (h : a.AtMost b) : (a.plus n).AtMost (b.plus n) :=
  h.imp (fun h => Nat.add_lt_add_right h n) fun h => ⟨congrArg (· + n) h.1, h.2⟩

end Timespec

theorem Dentry.isExpired_of_atMost {d : Dentry} {now : Timespec} (h : now.AtMost d.ttl) : d.isExpired now = false := by
  rw [Dentry.isExpired]
  rcases h with h | ⟨h, hn⟩
  · rw [if_neg (Nat.ne_of_gt h), decide_eq_false (Nat.lt_asymm h)]
  · rw [if_pos h.symm, decide_eq_false (Nat.not_lt.mpr hn)]

namespace MetaImpl
variable {ι σ α : Type} {T : Nat} {m m' : LocalMemMeta} {a p : Addr} {now : Timespec} {l : MetaAct} {s s' : World σ} {opt : MetaOpt}
  {st : Stor σ} {pino ino : InodeID} {name : Str}

/-! ### What renews an entry -/

/-- The steps that renew the ttl of a dentry set it to the timeout from now. -/
def Renews (T : Nat) (l : MetaAct) (s s' : World σ) : Prop :=
  match l with
  | .touch a => s'.cache = s.cache.set a (·.incTtl s.now T)
  | .sweep _ => s.cache.opt.dcacheTimeout = T → ∀ b, (s'.cache.heap b).ttl = (s.cache.heap b).ttl ∨ (s'.cache.heap b).ttl = s.now.plus T
  | _ => True

def renewing (l : MetaAct) : Bool :=
  match l with
  | .touch _ | .sweep _ => true
  | _ => false

theorem renews_other (hl : renewing l = false) : Renews T l s s' := by
  cases l <;> trivial

abbrev Renewing (T : Nat) (q : MetaM σ α) : Prop := q.Does (Renews T)

theorem renewing_step {f : EStateM Err (World σ) α} (hl : renewing l = false) : Renewing T (Prog.lift l f) :=
  Prog.does_lift fun _ => renews_other hl

theorem renewing_incTtl : Renewing opt.dcacheTimeout (incTtl opt a : MetaM σ _) := Prog.does_lift fun _ => rfl

theorem renewing_deref {d : Option Addr} : Renewing T (deref d : MetaM σ _) := by
  cases d <;> trivial

theorem renewing_addVirtualDir : Renewing opt.dcacheTimeout (addVirtualDir opt p name : MetaM σ _) :=
  (renewing_step rfl).bind fun _ => (renewing_step rfl).bind fun _ => renewing_incTtl.bind fun _ => trivial

theorem renewing_getRemoteObj : Renewing T (getRemoteObj st p name) :=
  (renewing_step rfl).bind fun _ => (renewing_step rfl).bind fun _ => (renewing_step rfl).bind fun _ =>
    .ite trivial ((renewing_step rfl).bind fun _ => trivial)

theorem renewing_findRemote : Renewing opt.dcacheTimeout (findRemote opt st pino name) := by
  refine Prog.Does.bind (renewing_step rfl) fun r => ?_
  cases r with
  | none => trivial
  | some p =>
    refine renewing_getRemoteObj.bind fun r => .ite ?_ ?_
    · exact (renewing_step rfl).bind fun _ => renewing_incTtl.bind fun _ => trivial
    · refine Prog.Does.bind (renewing_step rfl) fun _ => Prog.Does.bind ?_ fun _ => .ite renewing_addVirtualDir.map trivial
      exact (renewing_step rfl).bind fun _ => trivial

theorem renewing_revalidate : Renewing opt.dcacheTimeout (revalidate opt st a) :=
  (renewing_step rfl).bind fun _ => (Prog.Does.ite (renewing_step rfl) (renewing_step rfl)).bind fun _ => (renewing_step rfl).bind fun _ =>
    (renewing_step rfl).bind fun _ => .ite (renewing_incTtl.bind fun _ => trivial)
      ((renewing_step rfl).bind fun _ => renewing_incTtl.bind fun _ => trivial)

theorem renewing_findDentry {onlyLocal : Bool} : Renewing opt.dcacheTimeout (findDentry opt st pino name onlyLocal) := by
  refine Prog.Does.bind (renewing_step rfl) fun r => ?_
  cases r with
  | none => exact .ite trivial renewing_findRemote
  | some a => exact (renewing_step rfl).bind fun _ => .ite renewing_revalidate trivial

theorem renewing_fileKey {isRoot : Bool} : Renewing T (fileKey p isRoot name : MetaM σ _) :=
  .ite trivial ((renewing_step rfl).bind fun _ => trivial)

theorem renewing_newKey {mode : Mode} : Renewing T (newKey p name mode : MetaM σ _) :=
  (renewing_step rfl).bind fun _ => renewing_fileKey.bind fun _ => trivial

theorem renewing_createDentry {mode : Mode} : Renewing opt.dcacheTimeout (createDentry opt st pino name mode) := by
  refine renewing_findDentry.bind fun r => ?_
  cases r with
  | some a => trivial
  | none =>
    exact ((renewing_step rfl).bind fun _ => renewing_deref).bind fun _ => renewing_newKey.bind fun _ => (renewing_step rfl).bind fun _ =>
      (renewing_step rfl).bind fun _ => renewing_step rfl

theorem renewing_removeDentry : Renewing opt.dcacheTimeout (removeDentry opt st pino name) := by
  refine renewing_findDentry.bind fun r => ?_
  cases r with
  | none => trivial
  | some a =>
    refine Prog.Does.bind (renewing_step rfl) fun _ => Prog.Does.bind (renewing_step rfl) fun _ => .ite (.ite trivial ?_) ?_
    · exact (renewing_step rfl).bind fun _ => renewing_step rfl
    · exact (renewing_step rfl).bind fun _ => renewing_step rfl

theorem renewing_refreshLoop {pre : Str} (fuel : Nat) (marker : Str) : Renewing T (refreshLoop st ino pre fuel marker) := by
  induction fuel generalizing marker with
  | zero => trivial
  | succ fuel ih =>
    refine Prog.Does.bind (renewing_step rfl) fun resp => ?_
    cases buildFtree pre resp with
    | none => trivial
    | some children => exact (renewing_step rfl).bind fun _ => .ite (ih _) trivial

/-- A change of the cache that renews entries only, to the timeout from now. -/
structure Renewed (T : Nat) (now : Timespec) (m m' : LocalMemMeta) : Prop where
  opt : m'.opt = m.opt
  ttl : ∀ b, (m'.heap b).ttl = (m.heap b).ttl ∨ (m'.heap b).ttl = now.plus T

instance : Std.Refl (Renewed T now) := ⟨fun _ => ⟨rfl, fun _ => .inl rfl⟩⟩

instance : IsTrans LocalMemMeta (Renewed T now) where
  trans _ _ _ h h' := ⟨h'.opt.trans h.opt, fun b => (h'.ttl b).elim (fun heq => heq ▸ h.ttl b) .inr⟩

/-- An operation that renews entries, in a cache with the timeout `T`. -/
abbrev RenewsOnly (T : Nat) (now : Timespec) (f : LocalM α) : Prop :=
  Keeps (fun m => m.opt.dcacheTimeout = T) (Renewed T now) (fun _ => True) f fun _ _ => True

theorem renewsOnly_store {f : Dentry → Dentry} (h : ∀ d, (f d).ttl = d.ttl ∨ (f d).ttl = now.plus T) : RenewsOnly T now (store a f) := by
  refine fun m hm _ => ⟨hm, ⟨rfl, fun b => ?_⟩, trivial⟩
  by_cases hb : b = a
  · rw [hb, heap_set_self]
    exact h _
  · rw [heap_set_ne hb]
    exact .inl rfl

theorem ttl_visit {d : Dentry} : (visit now T d).ttl = now.plus T := by
  unfold visit
  dsimp only
  split <;> rfl

theorem ttl_keepChild {d : Dentry} : (keepChild now T d).ttl = now.plus T := by
  unfold keepChild
  dsimp only
  split <;> rfl

/-- The timeout that the sweep reads. -/
theorem keeps_timeout : Keeps (fun m : LocalMemMeta => m.opt.dcacheTimeout = T) (Renewed T now) (fun _ => True)
    (get : LocalM LocalMemMeta) fun m' _ => m'.opt.dcacheTimeout = T := fun _ hm _ => ⟨hm, ⟨rfl, fun _ => .inl rfl⟩, hm⟩

theorem renewsOnly_sweepChildren (entries : List (Sigma fun _ : Str => Addr)) : RenewsOnly T now (sweepChildren now a entries) := by
  induction entries with
  | nil => exact .pure fun _ _ _ => trivial
  | cons e rest ih =>
    have hload : RenewsOnly T now (load e.2) := fun m hm _ => ⟨hm, ⟨rfl, fun _ => .inl rfl⟩, trivial⟩
    refine hload.bind fun child => .ite (fun _ => ?_) fun _ => ?_
    · refine keeps_timeout.bind fun m => ?_
      intro m₁ hm₁ htimeout
      have hkeep : RenewsOnly T now (store e.2 (keepChild now m.opt.dcacheTimeout)) :=
        renewsOnly_store fun d => .inr (htimeout ▸ ttl_keepChild)
      exact (hkeep.bind fun _ => ih.bind fun _ => Keeps.pure fun _ _ _ => trivial) m₁ hm₁ trivial
    · have hremove : RenewsOnly T now (removeChild a child.name) := renewsOnly_store fun _ => .inl rfl
      exact hremove.bind fun _ => ih

theorem renewsOnly_sweepLoop (fuel : Nat) (queue : List Addr) : RenewsOnly T now (sweepLoop now fuel queue) := by
  induction fuel generalizing queue with
  | zero =>
    cases queue with
    | nil => exact .pure fun _ _ _ => trivial
    | cons => exact .throw
  | succ fuel ih =>
    cases queue with
    | nil => exact .pure fun _ _ _ => trivial
    | cons a queue =>
      refine keeps_timeout.bind fun m => ?_
      intro m₁ hm₁ htimeout
      have hvisit : RenewsOnly T now (store a (visit now m.opt.dcacheTimeout)) := renewsOnly_store fun d => .inr (htimeout ▸ ttl_visit)
      have hload : RenewsOnly T now (load a) := fun m hm _ => ⟨hm, ⟨rfl, fun _ => .inl rfl⟩, trivial⟩
      exact (hvisit.bind fun _ => hload.bind fun _ => (renewsOnly_sweepChildren _).bind fun _ => ih _) m₁ hm₁ trivial

theorem renewing_sweep : Renewing T (cache (.sweep a) fun now => clearUnsyncDentry now a : MetaM σ _) := by
  refine Prog.does_lift fun s htimeout b => ?_
  have hrenews : RenewsOnly T s.now (sweepLoop s.now s.cache.heapNext [a]) := renewsOnly_sweepLoop _ _
  have hloop := hrenews.endState htimeout trivial
  have hend : (endState (onCache (fun now => clearUnsyncDentry now a) s)).cache =
      endState (sweepLoop s.now s.cache.heapNext [a] s.cache) := by
    simp only [onCache, zoom]
    have hrun : clearUnsyncDentry s.now a s.cache = sweepLoop s.now s.cache.heapNext [a] s.cache := rfl
    rw [hrun]
    cases sweepLoop s.now s.cache.heapNext [a] s.cache <;> rfl
  rw [hend]
  exact hloop.2.ttl b

theorem renewing_loadSubDentries {fuel : Nat} : Renewing T (loadSubDentries st fuel ino) := by
  have hlist : ∀ {a : Addr}, Renewing T (listChildren a : MetaM σ _) := (renewing_step rfl).bind fun _ => trivial
  refine Prog.Does.bind (renewing_step rfl) fun r => ?_
  cases r with
  | none => trivial
  | some a =>
    refine Prog.Does.bind (renewing_step rfl) fun _ => .ite (Prog.Does.bind ?_ fun _ => hlist) hlist
    exact (renewing_step rfl).bind fun _ => (renewing_step rfl).bind fun _ => (renewing_refreshLoop _ _).bind fun _ => renewing_sweep

theorem renewing_request {fuel : Nat} (r : Request) : Renewing opt.dcacheTimeout (r.prog opt st fuel) := by
  cases r with
  | find => exact renewing_findDentry.map
  | create => exact renewing_createDentry.map
  | remove => exact renewing_removeDentry
  | load => exact renewing_loadSubDentries.map
  | updateSize => exact renewing_step rfl

/-! ### The lease -/

/-- A step leaves the ttl of a dentry as it is, or sets it to the timeout from now. -/
theorem ttl_effect (hm : s.cache.Inv) (hT : s.cache.opt.dcacheTimeout = T) (h : Effect l s s') (hr : Renews T l s s') {b : Addr}
    (hb : b < s.cache.heapNext) : (s'.cache.heap b).ttl = (s.cache.heap b).ttl ∨ (s'.cache.heap b).ttl = s.now.plus T := by
  have hset : ∀ {m : LocalMemMeta} {a : Addr} {f : Dentry → Dentry}, (∀ d, (f d).ttl = d.ttl ∨ (f d).ttl = s.now.plus T) →
      ((m.set a f).heap b).ttl = (m.heap b).ttl ∨ ((m.set a f).heap b).ttl = s.now.plus T := by
    intro m a f hf
    by_cases hba : b = a
    · rw [hba, heap_set_self]
      exact hf _
    · rw [heap_set_ne hba]
      exact .inl rfl
  have hsame : s'.cache = s.cache → (s'.cache.heap b).ttl = (s.cache.heap b).ttl ∨ (s'.cache.heap b).ttl = s.now.plus T :=
    fun heq => heq ▸ .inl rfl
  obtain ⟨hc, -⟩ := h
  cases l with
  | insert pino name =>
    rcases hc with ⟨p, inode, hp, -, hc⟩ | ⟨-, hc | hc⟩
    · have halloc := (hm.indexed _ _ hp).1
      rw [hc]
      by_cases hbp : b = p
      · rw [hbp, heap_link_parent (m := s.cache.issue) halloc]
        exact .inl rfl
      · rw [heap_link_other (m := s.cache.issue) hb hbp]
        exact .inl rfl
    · exact hsame hc
    · rw [hc]
      exact .inl rfl
  | erase pino name =>
    rcases hc with ⟨p, -, hc⟩ | ⟨-, hc⟩
    · rw [hc]
      exact hset fun _ => .inl rfl
    · exact hsame hc
  | touch a =>
    have htouch : s'.cache = s.cache.set a (·.incTtl s.now T) := hr
    rw [htouch]
    exact hset fun _ => .inr rfl
  | update ino u =>
    rcases hc with ⟨a, -, hc⟩ | ⟨-, hc⟩
    · rw [hc]
      exact hset fun _ => .inl rfl
    · exact hsame hc
  | build ino names =>
    rcases hc with ⟨a, nodes, -, hb'⟩ | ⟨-, hc⟩
    · exact .inl (hb'.same b hb).2.2
    · exact hsame hc
  | sweep a => exact hr hT b
  | _ => exact hsame hc

/-- Every touch so far gave its entry a ttl that is not over before the timeout from then, and this was seen by every step
    since. -/
structure Leased (T : Nat) (x : MetaConf ι σ) : Prop where
  inv : Inv x.state.cache
  timeout : x.state.cache.opt.dcacheTimeout = T
  lease : ∀ i a s, (i, .touch a, s) ∈ x.past → a < x.state.cache.heapNext ∧ s.now.AtMost x.state.now ∧
    (s.now.plus T).AtMost (x.state.cache.heap a).ttl
  seen : ∀ before e after, x.past = before ++ e :: after → ∀ i a s, (i, .touch a, s) ∈ before →
    (s.now.plus T).AtMost (e.2.2.cache.heap a).ttl

variable {x : MetaConf ι σ} {i : ι}

theorem Leased.step (hx : Leased T x) (h : Effect l x.state s') (hr : Renews T l x.state s') : Leased T (x.after i l s') := by
  obtain ⟨hinv, hgrow⟩ := h.1.keeps hx.inv
  refine ⟨hinv, ?_, fun j a s hmem => ?_, fun before e after heq j a s hmem => ?_⟩
  · exact (congrArg MetaOpt.dcacheTimeout hgrow.opt).trans hx.timeout
  · have hnow : x.state.now.AtMost s'.now := h.2 ▸ .refl
    rcases List.mem_append.mp hmem with hmem | hmem
    · obtain ⟨ha, hs, hlease⟩ := hx.lease j a s hmem
      refine ⟨Nat.lt_of_lt_of_le ha hgrow.next, hs.trans hnow, ?_⟩
      rcases ttl_effect hx.inv hx.timeout h hr ha with heq | heq <;> rw [show ((x.after i l s').state.cache.heap a).ttl = _ from heq]
      · exact hlease
      · exact hs.plus
    · -- the step itself is a touch
      obtain ⟨-, rfl, rfl⟩ : j = i ∧ MetaAct.touch a = l ∧ s = x.state := by simpa using hmem
      obtain ⟨-, halloc, -⟩ := h.1
      have htouch : s'.cache = x.state.cache.set a (·.incTtl x.state.now T) := hr
      refine ⟨Nat.lt_of_lt_of_le halloc hgrow.next, hnow, ?_⟩
      rw [show (x.after i (.touch a) s').state.cache = _ from htouch, heap_set_self]
      exact .refl
  · rcases List.eq_nil_or_concat after with rfl | ⟨after', e', rfl⟩
    · obtain ⟨rfl, he⟩ := List.append_inj' heq rfl
      obtain rfl := (List.singleton_inj.mp he).symm
      exact (hx.lease j a s hmem).2.2
    · rw [List.concat_eq_append, ← List.cons_append, ← List.append_assoc] at heq
      exact hx.seen before e after' (List.append_inj' heq rfl).1 j a s hmem

theorem Leased.elapses (hx : Leased T x) (h : Elapses x.state s') : Leased T { x with state := s' } := by
  have hcache : s'.cache = x.state.cache := h.cache
  refine ⟨?_, ?_, fun i a s hmem => ?_, hx.seen⟩
  · rw [show s'.cache = _ from hcache]
    exact hx.inv
  · rw [show s'.cache = _ from hcache]
    exact hx.timeout
  · obtain ⟨ha, hs, hlease⟩ := hx.lease i a s hmem
    rw [show ({ x with state := s' } : MetaConf ι σ).state.cache = _ from hcache]
    exact ⟨ha, hs.trans h.now, hlease⟩

/-! ### Who asks for an entry -/

def isHead (l : MetaAct) : Bool :=
  match l with
  | .head _ => true
  | _ => false

def isCheck (l : MetaAct) : Bool :=
  match l with
  | .check _ => true
  | _ => false

/-- The checks of a thread so far found their entries expired. -/
def AllExpired (hist : Hist σ) : Prop := ∀ a s, (.check a, s) ∈ hist → (s.cache.heap a).isExpired s.now = true

/-- The store is asked for an entry only when that is so. -/
def AsksExpired (hist : Hist σ) (l : MetaAct) : Prop := isHead l = true → AllExpired hist

/-- Each step of the thread `i` is as `AsksExpired` says. -/
abbrev AsksOnlyExpired [DecidableEq ι] (i : ι) (K : Hist σ → Prop) (q : MetaM σ α) (K' : α → Hist σ → Prop) : Prop :=
  q.Heeds CacheInv Grown (fun _ hist l _ => AsksExpired hist l) i (fun hist _ => K hist) fun r hist _ => K' r hist

abbrev Checkless (q : MetaM σ α) : Prop := q.Labels fun l => isCheck l = false

abbrev Headless (q : MetaM σ α) : Prop := q.Labels fun l => isHead l = false

theorem AllExpired.append {hist : Hist σ} (h : AllExpired hist) (hl : ∀ a, l = .check a → (s.cache.heap a).isExpired s.now = true) :
    AllExpired (hist ++ [(l, s)]) := by
  intro a t hmem
  rcases List.mem_append.mp hmem with hmem | hmem
  · exact h a t hmem
  · obtain ⟨rfl, rfl⟩ : MetaAct.check a = l ∧ t = s := by simpa using hmem
    exact hl a rfl

theorem allExpired_nil : AllExpired ([] : Hist σ) := fun _ _ hmem => by cases hmem

theorem checkless_step {f : EStateM Err (World σ) α} (hl : isCheck l = false) : Checkless (Prog.lift l f) := Prog.labels_lift hl

theorem headless_step {f : EStateM Err (World σ) α} (hl : isHead l = false) : Headless (Prog.lift l f) := Prog.labels_lift hl

theorem checkless_incTtl : Checkless (incTtl opt a : MetaM σ _) := checkless_step rfl

theorem checkless_addVirtualDir : Checkless (addVirtualDir opt p name : MetaM σ _) :=
  (checkless_step rfl).bind fun _ => (checkless_step rfl).bind fun _ => checkless_incTtl.bind fun _ => trivial

theorem checkless_getRemoteObj : Checkless (getRemoteObj st p name) :=
  (checkless_step rfl).bind fun _ => (checkless_step rfl).bind fun _ => (checkless_step rfl).bind fun _ =>
    .ite trivial ((checkless_step rfl).bind fun _ => trivial)

theorem checkless_findRemote : Checkless (findRemote opt st pino name) := by
  refine Prog.Preserves.bind (checkless_step rfl) fun r => ?_
  cases r with
  | none => trivial
  | some p =>
    refine checkless_getRemoteObj.bind fun r => .ite ?_ ?_
    · exact (checkless_step rfl).bind fun _ => checkless_incTtl.bind fun _ => trivial
    · refine Prog.Preserves.bind (checkless_step rfl) fun _ => Prog.Preserves.bind ?_ fun _ => .ite checkless_addVirtualDir.map trivial
      exact (checkless_step rfl).bind fun _ => trivial

theorem checkless_revalidate : Checkless (revalidate opt st a) :=
  (checkless_step rfl).bind fun _ => (Prog.Preserves.ite (checkless_step rfl) (checkless_step rfl)).bind fun _ =>
    (checkless_step rfl).bind fun _ => (checkless_step rfl).bind fun _ => .ite (checkless_incTtl.bind fun _ => trivial)
      ((checkless_step rfl).bind fun _ => checkless_incTtl.bind fun _ => trivial)

theorem headless_newKey {mode : Mode} : Headless (newKey p name mode : MetaM σ _) := by
  have hkey : ∀ {isRoot : Bool}, Headless (fileKey p isRoot name : MetaM σ _) :=
    .ite trivial ((headless_step rfl).bind fun _ => trivial)
  exact (headless_step rfl).bind fun _ => hkey.bind fun _ => trivial

theorem headless_refreshLoop {pre : Str} (fuel : Nat) (marker : Str) : Headless (refreshLoop st ino pre fuel marker) := by
  induction fuel generalizing marker with
  | zero => trivial
  | succ fuel ih =>
    refine Prog.Preserves.bind (headless_step rfl) fun resp => ?_
    cases buildFtree pre resp with
    | none => trivial
    | some children => exact (headless_step rfl).bind fun _ => .ite (ih _) trivial

theorem headless_loadSubDentries {fuel : Nat} : Headless (loadSubDentries st fuel ino) := by
  have hlist : ∀ {a : Addr}, Headless (listChildren a : MetaM σ _) := (headless_step rfl).bind fun _ => trivial
  refine Prog.Preserves.bind (headless_step rfl) fun r => ?_
  cases r with
  | none => trivial
  | some a =>
    refine Prog.Preserves.bind (headless_step rfl) fun _ => .ite (Prog.Preserves.bind ?_ fun _ => hlist) hlist
    exact (headless_step rfl).bind fun _ => (headless_step rfl).bind fun _ => (headless_refreshLoop _ _).bind fun _ =>
      headless_step rfl

section
variable [DecidableEq ι] {i : ι}

theorem asks_checkless {q : MetaM σ α} (hq : Tame q) (hlabels : Checkless q) : AsksOnlyExpired i AllExpired q fun _ => AllExpired := by
  refine heeds_tame hq hlabels (fun _ _ _ _ h _ => h) (fun _ => lasts_const) fun _ _ l _ hl h => h.append fun a heq => ?_
  rw [heq] at hl
  cases hl

theorem asks_headless {q : MetaM σ α} (hq : Tame q) (hlabels : Headless q) : AsksOnlyExpired i (fun _ => True) q fun _ _ => True :=
  heeds_tame hq hlabels (fun _ _ _ hl _ hhead => by rw [hl] at hhead; cases hhead) (fun _ => lasts_const) fun _ _ _ _ _ _ => trivial

theorem asks_findDentry : AsksOnlyExpired i AllExpired (findDentry opt st pino name false) fun _ _ => True := by
  refine (asks_checkless (tame_cache fun _ => kept_findDentry) (checkless_step rfl)).bind fun r => ?_
  cases r with
  | none => exact (asks_checkless tame_findRemote checkless_findRemote).post fun _ _ hx => ⟨hx.1, trivial⟩
  | some a =>
    have hcheck : AsksOnlyExpired i AllExpired (isExpired a : MetaM σ _) fun stale hist => stale = true → AllExpired hist := by
      refine Prog.heeds_lift (fun _ _ _ _ _ h => h) fun hist s hs hk => ⟨fun hhead => (by cases hhead), ⟨hs, hs, hs, .refl _⟩, ?_⟩
      rintro stale s' hr htrue
      obtain ⟨rfl, -⟩ := Result.ok.inj hr
      exact hk.append fun b hb => MetaAct.check.inj hb ▸ htrue
    refine hcheck.bind fun stale => ?_
    cases stale with
    | false => exact Prog.sat_pure fun x hx => ⟨hx.1, trivial⟩
    | true =>
      have hrevalidate : AsksOnlyExpired i AllExpired (revalidate opt st a) fun _ _ => True :=
        (asks_checkless tame_revalidate checkless_revalidate).post fun _ _ hx => ⟨hx.1, trivial⟩
      exact Prog.Sat.pre hrevalidate fun x hx => ⟨hx.1, hx.2 rfl⟩

theorem asks_request {fuel : Nat} (r : Request) : AsksOnlyExpired i AllExpired (r.prog opt st fuel) fun _ _ => True := by
  have hnone : ∀ {α : Type} {q : MetaM σ α}, Tame q → Headless q → AsksOnlyExpired i (fun _ => True) q fun _ _ => True := asks_headless
  cases r with
  | find => exact Prog.Sat.map asks_findDentry
  | create pino name mode =>
    refine Prog.Sat.map (asks_findDentry.bind fun r => ?_)
    cases r with
    | some a => exact Prog.sat_pure fun x hx => hx
    | none =>
      refine hnone ((tame_getDentry.bind fun _ => tame_deref).bind fun _ => tame_newKey.bind fun _ => tame_readDentry.bind fun _ =>
        tame_call.bind fun _ => tame_cache fun _ => kept_createNew) ?_
      have hderef : ∀ d : Option Addr, Headless (deref d : MetaM σ _) := fun d => by cases d <;> trivial
      exact (Prog.Preserves.bind (headless_step rfl) hderef).bind fun _ => headless_newKey.bind fun _ =>
        (headless_step rfl).bind fun _ => (headless_step rfl).bind fun _ => headless_step rfl
  | remove pino name =>
    refine asks_findDentry.bind fun r => ?_
    cases r with
    | none => exact Prog.sat_pure fun x hx => hx
    | some a =>
      refine hnone (tame_fullPath.bind fun _ => tame_readDentry.bind fun _ => .ite (.ite trivial ?_) ?_) ?_
      · exact tame_call.bind fun _ => tame_cache fun _ => kept_removeDentry
      · exact tame_call.bind fun _ => tame_cache fun _ => kept_removeDentry
      · refine Prog.Preserves.bind (headless_step rfl) fun _ => Prog.Preserves.bind (headless_step rfl) fun _ =>
          .ite (.ite trivial ?_) ?_
        · exact (headless_step rfl).bind fun _ => headless_step rfl
        · exact (headless_step rfl).bind fun _ => headless_step rfl
  | load =>
    exact Prog.Sat.map (Prog.Sat.pre (hnone tame_loadSubDentries headless_loadSubDentries) fun x hx => ⟨hx.1, trivial⟩)
  | updateSize => exact Prog.Sat.pre (hnone tame_updateInode (headless_step rfl)) fun x hx => ⟨hx.1, trivial⟩

/-! ### Every run -/

variable {fuel : ι → Nat} {reqs : ι → Request} {y : Pool ι MetaAct Err (World σ) Unit}

/-- The run lemma. -/
theorem leased_runs (hs : CacheInv s) (hT : s.cache.opt.dcacheTimeout = opt.dcacheTimeout)
    (h : Pool.Runs (fun _ _ _ => True) Elapses (requestPool (fun _ => opt) st fuel reqs s) y) : Leased opt.dcacheTimeout y.conf := by
  have hmoving : Pool.Moving CacheGrow (fun l s s' => (True ∧ Effect l s s') ∧ Renews opt.dcacheTimeout l s s') CacheInv
      (fun _ _ _ => True) (requestPool (fun _ => opt) st fuel reqs s) := fun i =>
    ⟨fun _ => True, Prog.persists_true, trivial, (acts_request (fun _ => trivial) (reqs i)).and (renewing_request (reqs i))⟩
  have hstart : Leased opt.dcacheTimeout (⟨[], s⟩ : MetaConf ι σ) :=
    ⟨hs, hT, fun _ _ _ hmem => (by cases hmem), fun before _ _ heq => (by simp at heq)⟩
  refine (Pool.invariant (J := Leased opt.dcacheTimeout) (fun _ hx => hx.inv) ?_ ?_ hmoving hstart h).1
  · rintro i l x s' hx - ⟨⟨-, heffect⟩, hrenews⟩
    exact ⟨hx.step heffect hrenews, (heffect.1.keeps hx.inv).2⟩
  · intro x s' hx he
    refine ⟨hx.elapses he, ?_⟩
    rw [CacheGrow, he.cache]
    exact .refl _

/-- In every interleaving of requests, with a clock that never goes back, any changes of the bucket and any failures: when
    an entry was touched (it was entered from an answer of the store, or revalidated) and a request checks it less than the
    timeout later, this request does not ask the store for the entry. -/
theorem revalidations_apart (hs : CacheInv s) (hT : s.cache.opt.dcacheTimeout = opt.dcacheTimeout)
    (h : Pool.Runs (fun _ _ _ => True) Elapses (requestPool (fun _ => opt) st fuel reqs s) y) {i j : ι} {a : Addr} {key : Str}
    {s₀ s₁ s₂ : World σ} {before mid rest after : List (ι × MetaAct × World σ)}
    (hpast : y.conf.past = before ++ (i, .touch a, s₀) :: mid ++ (j, .check a, s₁) :: rest ++ (j, .head key, s₂) :: after) :
    ¬ s₀.now.Within opt.dcacheTimeout s₁.now := by
  intro hwithin
  have hseen := (leased_runs hs hT h).seen (before ++ (i, .touch a, s₀) :: mid) (j, .check a, s₁) (rest ++ (j, .head key, s₂) :: after)
    (by rw [hpast]; simp) i a s₀ (by simp)
  have hstays : Pool.Runs (fun _ _ _ => True) CacheStays (requestPool (fun _ => opt) st fuel reqs s) y :=
    Pool.runs_weaken (fun _ _ he => he.cache) h
  have heach : Each (fun _ hist l _ => AsksExpired hist l) y.conf.past := requests_heed
    (fun i => Prog.Sat.pre (asks_request (reqs i)) fun x hx => ⟨hx.1, hx.2 ▸ allExpired_nil⟩) hs hstays
  have hexpired := heach (before ++ (i, .touch a, s₀) :: mid ++ (j, .check a, s₁) :: rest) j (.head key) s₂ after hpast rfl a s₁
    (by simp [own])
  have hwithin' : s₁.now.AtMost (s₀.now.plus opt.dcacheTimeout) := hwithin
  rw [Dentry.isExpired_of_atMost (hwithin'.trans hseen)] at hexpired
  cases hexpired

end

/-- Two lookups of the same file. -/
def lookTwice (_ : Bool) : Request := .find ROOT_INODE_ID ['f']

def twoLooks : Pool Bool MetaAct Err (World Log) Unit :=
  requestPool (fun _ => ⟨0, 0, 60⟩) (s3Stor Log.client) (fun _ => 1) lookTwice (newWorld twoObjects)

/-- A hundred seconds pass. -/
def waited (x : Pool Bool MetaAct Err (World Log) Unit) : Pool Bool MetaAct Err (World Log) Unit :=
  { x with conf := { x.conf with state := { x.conf.state with now := ⟨100, 0⟩ } } }

/-- The second lookup asks for the entry that the first one entered. -/
def asksAgain (y : Pool Bool MetaAct Err (World Log) Unit) : Bool :=
  y.conf.past.map (fun e => (e.1, e.2.1)) =
    [(false, .find 1 ['f']), (false, .getDentry 1), (false, .read 0), (false, .read 0), (false, .head ['f']), (false, .insert 1 ['f'])] ++
      (false, .touch 1) :: ([(true, .find 1 ['f'])] ++ (true, .check 1) :: ([(true, .read 1), (true, .read 1), (true, .read 0)] ++
        (true, .head ['f']) :: []))

theorem looks_twice : ∃ x, twoLooks.exec (fun _ _ _ => true) (List.replicate 7 false) = some x ∧ (decide (x.conf.state.now = ⟨0, 0⟩) &&
    ((waited x).exec (fun _ _ _ => true) (List.replicate 6 true)).any asksAgain) = true := (Option.any_eq_true _ _).mp (by decide +kernel)

theorem revalidations_apart_twice : ∃ y s₀ s₁, Pool.Runs (fun _ _ _ => True) Elapses twoLooks y ∧
    (false, MetaAct.touch 1, s₀) ∈ y.conf.past ∧ (true, MetaAct.check 1, s₁) ∈ y.conf.past ∧ ¬ s₀.now.Within 60 s₁.now := by
  obtain ⟨x, hx, hall⟩ := looks_twice
  obtain ⟨hnow, hagain⟩ := (Bool.and_eq_true _ _).mp hall
  obtain ⟨y, hy, hasks⟩ := (Option.any_eq_true _ _).mp hagain
  have hfirst : Pool.Runs (fun _ _ _ => True) Elapses (requestPool (fun _ => ⟨0, 0, 60⟩) (s3Stor Log.client) (fun _ => 1) lookTwice
      (newWorld twoObjects)) x := Pool.runs_exec (fun _ _ _ _ => trivial) hx
  have hwait : Elapses x.conf.state { x.conf.state with now := ⟨100, 0⟩ } := by
    refine ⟨rfl, .inl ?_⟩
    rw [of_decide_eq_true hnow]
    exact Nat.zero_lt_succ 99
  have hruns : Pool.Runs (fun _ _ _ => True) Elapses (requestPool (fun _ => ⟨0, 0, 60⟩) (s3Stor Log.client) (fun _ => 1) lookTwice
      (newWorld twoObjects)) y := (hfirst.tail (.env hwait)).trans (Pool.runs_exec (fun _ _ _ _ => trivial) hy)
  obtain ⟨before, rest, hpast, -, hrest⟩ := List.map_eq_append_iff.mp (of_decide_eq_true hasks)
  obtain ⟨⟨i, l, s₀⟩, rest, rfl, htouch, hrest⟩ := List.map_eq_cons_iff.mp hrest
  obtain ⟨mid, rest, rfl, -, hrest⟩ := List.map_eq_append_iff.mp hrest
  obtain ⟨⟨j, l', s₁⟩, rest, rfl, hcheck, hrest⟩ := List.map_eq_cons_iff.mp hrest
  obtain ⟨rest', rest, rfl, -, hrest⟩ := List.map_eq_append_iff.mp hrest
  obtain ⟨⟨k, l'', s₂⟩, after, rfl, hhead, -⟩ := List.map_eq_cons_iff.mp hrest
  obtain ⟨rfl, rfl⟩ := Prod.mk.inj htouch
  obtain ⟨rfl, rfl⟩ := Prod.mk.inj hcheck
  obtain ⟨rfl, rfl⟩ := Prod.mk.inj hhead
  have hsplit : y.conf.past = before ++ (false, .touch 1, s₀) :: mid ++ (true, .check 1, s₁) :: rest' ++
      (true, .head ['f'], s₂) :: after := by
    rw [hpast]
    simp
  exact ⟨y, s₀, s₁, hruns, by simp [hpast], by simp [hpast],
    revalidations_apart (show CacheInv (newWorld twoObjects) from .new ⟨0, 0, 60⟩ ⟨0, 0⟩) rfl hruns hsplit⟩

end MetaImpl

end Catfs
