import Catfs.LogBucket
import Catfs.StorS3
import Catfs.Theorems.Edits

/-! # What a request leaves alone

A listing of the directory `p` changes `p` and what is below it. A lookup, a creation and a removal change `p` and the
entry that they name. -/

namespace Catfs

open Lib MetaM LocalMemMeta
open Relation (ReflTransGen)

namespace LocalMemMeta
variable {m m₀ m' : LocalMemMeta} {a b c p : Addr} {n k : Str} {e : Edit}

def HasChild (m : LocalMemMeta) (a c : Addr) : Prop := ∃ n, (m.heap a).getChild n = some c

/-- `a` is `p`, or below it. -/
abbrev Below (m : LocalMemMeta) (p a : Addr) : Prop := ReflTransGen m.HasChild p a

theorem Below.allocated (hm : Inv m) (hp : p < m.heapNext) (h : Below m p a) : p ≤ a ∧ a < m.heapNext := by
  induction h with
  | refl => exact ⟨Nat.le_refl _, hp⟩
  | tail _ hc ih =>
    obtain ⟨n, hc⟩ := hc
    obtain ⟨hlt, hcn, -⟩ := hm.child _ n _ ih.2 hc
    exact ⟨Nat.le_of_lt (Nat.lt_of_le_of_lt ih.1 hlt), hcn⟩

/-! ### The dentries that an edit writes to -/

def Edit.Writes (m : LocalMemMeta) (e : Edit) (b : Addr) : Prop :=
  match e with
  | .alter a _ => b = a
  | .link p _ _ | .erase p _ => b = p
  | .sweep p => m.Visited p b ∨ ∃ v, m.Visited p v ∧ ∃ n, m.KeptChild v n b

theorem Edit.Leads.same (h : e.Leads m m') (hb : b < m.heapNext) (hw : ¬ e.Writes m b) : m'.heap b = m.heap b := by
  cases e with
  | alter a f =>
    obtain ⟨-, -, -, rfl⟩ := h
    exact heap_set_ne hw
  | link p name inode =>
    obtain ⟨-, -, rfl⟩ := h
    exact heap_link_other (m := m.issue) hb hw
  | erase p name =>
    obtain rfl := h
    exact heap_set_ne hw
  | sweep p =>
    obtain ⟨hv, hk⟩ := not_or.mp hw
    exact h.2.same b hv fun v hv n hn => hk ⟨v, hv, n, hn⟩

/-! ### Listings -/

/-- The dentries at or below `p`, and those made since. -/
def Reached (m₀ : LocalMemMeta) (p a : Addr) : Prop := Below m₀ p a ∨ m₀.heapNext ≤ a

/-- From `m₀` to `m` only what is at or below `p` changed. -/
structure OnlyBelow (p : Addr) (m₀ m : LocalMemMeta) : Prop where
  same : ∀ a, a < m₀.heapNext → ¬ Below m₀ p a → m.heap a = m₀.heap a
  closed : ∀ a n c, a < m.heapNext → Reached m₀ p a → (m.heap a).getChild n = some c → Reached m₀ p c

theorem OnlyBelow.refl : OnlyBelow p m m where
  same _ _ _ := rfl
  closed a n c ha h hc := by
    rcases h with h | h
    · exact .inl (h.tail ⟨n, hc⟩)
    · exact absurd ha (Nat.not_lt.mpr h)

theorem OnlyBelow.edit (h : OnlyBelow p m₀ m) (hgrow : Grow m₀ m) (hl : e.Leads m m')
    (hw : ∀ b, e.Writes m b → Reached m₀ p b) : OnlyBelow p m₀ m' where
  same a ha hnot := by
    have hkept : ¬ e.Writes m a := by
      intro hwrites
      rcases hw a hwrites with hb | hb
      · exact hnot hb
      · exact Nat.lt_irrefl _ (Nat.lt_of_lt_of_le ha hb)
    exact (hl.same (Nat.lt_of_lt_of_le ha hgrow.next) hkept).trans (h.same a ha hnot)
  closed a n c ha hreached hc := by
    rcases hl.origin ha hc with ⟨ha', hc'⟩ | hnew
    · exact h.closed a n c ha' hreached hc'
    · exact .inr (Nat.le_trans hgrow.next hnew)

theorem OnlyBelow.visited (h : OnlyBelow p m₀ m) (hm : Inv m) (hp : p < m.heapNext) (hv : m.Visited p a) :
    a < m.heapNext ∧ Reached m₀ p a := by
  induction hv with
  | start => exact ⟨hp, .inl .refl⟩
  | down _ hc _ ih => exact ⟨(hm.child _ _ _ ih.1 hc.1).2.1, h.closed _ _ _ ih.1 ih.2 hc.1⟩

/-! ### One entry -/

/-- The edit is one of the entry `n` of `p`. -/
def Edit.At (p : Addr) (n : Str) (m : LocalMemMeta) (e : Edit) : Prop :=
  match e with
  | .alter a _ => (m.heap p).getChild n = some a
  | .link q k _ | .erase q k => q = p ∧ k = n
  | .sweep _ => False

/-- From `m₀` to `m` only the entry `n` of `p` changed. -/
structure OnlyEntry (p : Addr) (n : Str) (m₀ m : LocalMemMeta) : Prop where
  same : ∀ a, a < m₀.heapNext → a ≠ p → (m₀.heap p).getChild n ≠ some a → m.heap a = m₀.heap a
  others : ∀ k, k ≠ n → (m.heap p).getChild k = (m₀.heap p).getChild k
  named : ∀ c, (m.heap p).getChild n = some c → (m₀.heap p).getChild n = some c ∨ m₀.heapNext ≤ c

theorem OnlyEntry.refl : OnlyEntry p n m m := ⟨fun _ _ _ _ => rfl, fun _ _ => rfl, fun _ h => .inl h⟩

theorem OnlyEntry.edit (h : OnlyEntry p n m₀ m) (hm : Inv m) (hgrow : Grow m₀ m) (hp : p < m.heapNext) (he : e.At p n m)
    (hl : e.Leads m m') : OnlyEntry p n m₀ m' := by
  have hsame : ∀ a, a < m₀.heapNext → ¬ e.Writes m a → a ≠ p → (m₀.heap p).getChild n ≠ some a →
      m'.heap a = m₀.heap a := fun a ha hw hap hn =>
    (hl.same (Nat.lt_of_lt_of_le ha hgrow.next) hw).trans (h.same a ha hap hn)
  cases e with
  | alter c f =>
    have hpc : p ≠ c := Nat.ne_of_lt (hm.child p n c hp he).1
    have hself : m'.heap p = m.heap p := hl.same hp hpc
    refine ⟨fun a ha hap hn => hsame a ha (fun hac => ?_) hap hn, fun k hk => ?_, fun d hd => ?_⟩
    · obtain rfl : a = c := hac
      rcases h.named a he with ha' | ha'
      · exact hn ha'
      · exact Nat.lt_irrefl _ (Nat.lt_of_lt_of_le ha ha')
    · rw [hself]
      exact h.others k hk
    · exact h.named d (hself ▸ hd)
  | link q k inode =>
    obtain ⟨rfl, rfl⟩ := he
    obtain ⟨-, -, rfl⟩ := hl
    refine ⟨fun a ha hap hn => hsame a ha hap hap hn, fun j hj => ?_, fun d hd => ?_⟩
    · rw [heap_link_parent (m := m.issue) hp]
      exact (AList.lookup_insert_ne hj).trans (h.others j hj)
    · rw [heap_link_parent (m := m.issue) hp] at hd
      obtain rfl : m.heapNext = d := Option.some.inj ((AList.lookup_insert _).symm.trans hd)
      exact .inr hgrow.next
  | erase q k =>
    obtain ⟨rfl, rfl⟩ := he
    obtain rfl := hl
    refine ⟨fun a ha hap hn => hsame a ha hap hap hn, fun j hj => ?_, fun d hd => ?_⟩
    · rw [heap_set_self]
      exact (AList.lookup_erase_ne hj).trans (h.others j hj)
    · rw [heap_set_self, Dentry.getChild, AList.lookup_erase] at hd
      cases hd
  | sweep q => exact he.elim

/-- Another child of `p`, and what is below it, are not concerned. -/
theorem OnlyEntry.sibling (h : OnlyEntry p n m₀ m) (hm : Inv m₀) (hp : p < m₀.heapNext) (hk : k ≠ n)
    (hc : (m₀.heap p).getChild k = some c) (ha : Below m₀ c a) : m.heap a = m₀.heap a := by
  obtain ⟨hpc, hcn, hname, -⟩ := hm.child p k c hp hc
  obtain ⟨hca, han⟩ := ha.allocated hm hcn
  refine h.same a han (Nat.ne_of_gt (Nat.lt_of_lt_of_le hpc hca)) fun hn => ?_
  obtain ⟨-, -, hname', hparent⟩ := hm.child p n a hp hn
  rcases ReflTransGen.cases_tail ha with rfl | ⟨b, hb, j, hj⟩
  · exact hk (hname.symm.trans hname')
  · -- The parent of `a` is `p`, and it is below `c`.
    obtain ⟨hcb, hbn⟩ := Below.allocated hm hcn hb
    obtain ⟨-, -, -, hparent'⟩ := hm.child b j a hbn hj
    obtain rfl : p = b := Option.some.inj (hparent.symm.trans hparent')
    exact Nat.lt_irrefl _ (Nat.lt_of_lt_of_le hpc hcb)

end LocalMemMeta

namespace MetaImpl
variable {σ : Type} {opt : MetaOpt} {st : Stor σ} {s : World σ} {ino : InodeID} {p : Addr} {n : Str} {m : LocalMemMeta} {e : Edit}

theorem LookupEdit.at (hm : m.lookup ino = some p) (hs : s.cache.lookup ino = some p) (h : LookupEdit opt st s ino n e m) :
    e.At p n m := by
  cases h with
  | touch hp ha =>
    obtain rfl := Option.some.inj (hp.symm.trans hm)
    exact ha
  | update hp ha hexpired hhead hfound =>
    obtain rfl := Option.some.inj (hp.symm.trans hs)
    exact ha
  | object hp hnone obj isDir => exact ⟨Option.some.inj (hp.symm.trans hs), rfl⟩
  | «virtual» hp hnone => exact ⟨Option.some.inj (hp.symm.trans hs), rfl⟩

/-- A request of the entry `n` of `p` edits that entry alone. -/
theorem Request.edits_at {r : Request} (hr : r.entry = some (ino, n)) (hm : m.lookup ino = some p)
    (hs : s.cache.lookup ino = some p) (he : r.Edits opt st s e m) : e.At p n m := by
  cases r with
  | find pino name =>
    obtain ⟨rfl, rfl⟩ := Prod.mk.inj (Option.some.inj hr)
    exact LookupEdit.at hm hs he
  | create pino name mode =>
    obtain ⟨rfl, rfl⟩ := Prod.mk.inj (Option.some.inj hr)
    cases he with
    | lookup he => exact he.at hm hs
    | entry hp hnone => exact ⟨Option.some.inj (hp.symm.trans hs), rfl⟩
  | remove pino name =>
    obtain ⟨rfl, rfl⟩ := Prod.mk.inj (Option.some.inj hr)
    cases he with
    | lookup he => exact he.at hm hs
    | entry hp => exact ⟨Option.some.inj (hp.symm.trans hm), rfl⟩
  | load => cases hr
  | updateSize => cases hr

variable (opt st) in
theorem onlyEntry_request (hs : CacheInv s) (hp : s.cache.lookup ino = some p) {r : Request} (hr : r.entry = some (ino, n))
    (fuel : Nat) : OnlyEntry p n s.cache (endState ((r.prog opt st fuel).run s)).cache := by
  have htrail := request_edits opt st hs fuel r
  refine htrail.edits.keeps hs .refl fun e m m' hm hrest hk he hl => ?_
  have hg := (hrest.grow hs).2
  have hp' := hg.index _ _ hp
  exact hk.edit hm hg (hm.indexed _ _ hp').1 (Request.edits_at hr hp' hp he) hl

/-- A listing of `p` writes only to `p` and what is below it. -/
theorem LoadEdit.reached {m₀ : LocalMemMeta} (hm : m.Inv) (hp : m.lookup ino = some p) (hk : OnlyBelow p m₀ m)
    (he : LoadEdit st s ino e m) {b : Addr} (hw : e.Writes m b) : Reached m₀ p b := by
  have halloc := (hm.indexed _ _ hp).1
  have hself : Reached m₀ p p := .inl .refl
  cases he with
  | mark hp' =>
    obtain rfl := Option.some.inj (hp'.symm.trans hp)
    obtain rfl := hw
    exact hself
  | update hp' hnode hc =>
    obtain rfl := Option.some.inj (hp'.symm.trans hp)
    obtain rfl := hw
    exact hk.closed _ _ _ halloc hself hc
  | entry hp' hstale hnode hnone =>
    obtain rfl := Option.some.inj (hp'.symm.trans hp)
    obtain rfl := hw
    exact hself
  | marked hp' hc =>
    obtain rfl := Option.some.inj (hp'.symm.trans hp)
    obtain rfl := hw
    exact hk.closed _ _ _ halloc hself hc
  | sweep hp' =>
    obtain rfl := Option.some.inj (hp'.symm.trans hp)
    rcases hw with hv | ⟨v, hv, n, hn⟩
    · exact (hk.visited hm halloc hv).2
    · obtain ⟨hvn, hreached⟩ := hk.visited hm halloc hv
      exact hk.closed v n b hvn hreached hn.1

theorem onlyBelow_load (hs : CacheInv s) (hp : s.cache.lookup ino = some p) (fuel : Nat) :
    OnlyBelow p s.cache (endState (((Request.load ino).prog opt st fuel).run s)).cache := by
  have htrail := request_edits opt st hs fuel (.load ino)
  refine htrail.edits.keeps hs .refl fun e m m' hm hrest hk he hl => ?_
  have hg := (hrest.grow hs).2
  exact hk.edit hg hl fun b hw => LoadEdit.reached hm (hg.index _ _ hp) hk he hw

/-- Whatever the store answers, a request on the directory `p` leaves every dentry that is neither `p` nor below it as it
    was, and one on the entry `n` of `p` also the other children of `p` and what is below them. -/
theorem request_frame (h : Reachable opt s.cache) (hp : s.cache.lookup ino = some p) (fuel : Nat) (r : Request)
    (hr : r = .load ino ∨ ∃ n, r.entry = some (ino, n)) :
    (∀ a, a < s.cache.heapNext → ¬ Below s.cache p a →
      (endState ((r.prog opt st fuel).run s)).cache.heap a = s.cache.heap a) ∧
    ∀ n, r.entry = some (ino, n) → ∀ k, k ≠ n →
      ((endState ((r.prog opt st fuel).run s)).cache.heap p).getChild k = (s.cache.heap p).getChild k ∧
      ∀ c a, (s.cache.heap p).getChild k = some c → Below s.cache c a →
        (endState ((r.prog opt st fuel).run s)).cache.heap a = s.cache.heap a := by
  have hs : CacheInv s := h.inv
  have halloc := (h.inv.indexed _ _ hp).1
  refine ⟨fun a ha hnot => ?_, fun n hn k hk => ?_⟩
  · rcases hr with rfl | ⟨n, hn⟩
    · exact (onlyBelow_load hs hp fuel).same a ha hnot
    · refine (onlyEntry_request opt st hs hp hn fuel).same a ha (fun hap => hnot (hap ▸ .refl)) fun hc => ?_
      exact hnot (.single ⟨n, hc⟩)
  · have hentry := onlyEntry_request opt st hs hp hn fuel
    exact ⟨hentry.others k hk, fun c a hc ha => hentry.sibling h.inv halloc hk hc ha⟩

/-- A new mount in which the directory `d` was made. -/
def madeDir : World Log :=
  endState (((Request.create ROOT_INODE_ID ['d'] S_IFDIR).prog ⟨0, 0, 60⟩ (s3Stor Log.client) 1).run (newWorld ([] : Log)))

theorem request_frame_load : (endState (((Request.load 2).prog ⟨0, 0, 60⟩ (s3Stor Log.client) 1).run madeDir)).cache.heap 0 =
    madeDir.cache.heap 0 := by
  have hreach : Reachable ⟨0, 0, 60⟩ madeDir.cache := .request (.new ⟨0, 0⟩) (s3Stor Log.client) 1 _ ([] : Log) ⟨0, 0⟩ noGarbage
  have hp : madeDir.cache.lookup 2 = some 1 := by decide +kernel
  have hnext : madeDir.cache.heapNext = 2 := by decide +kernel
  refine (request_frame hreach hp 1 (.load 2) (.inl rfl)).1 0 (by rw [hnext]; decide) fun hbelow => ?_
  exact Nat.not_succ_le_zero 0 (hbelow.allocated hreach.inv (by rw [hnext]; decide)).1

end MetaImpl

end Catfs
