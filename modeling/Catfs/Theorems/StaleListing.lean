import Catfs.Theorems.ConcurrentFind

/-! # How old a listing can be

A directory that is complete and not expired answers a listing from the cache. Its ttl is set by the sweep that ends a
listing of its own, but lookups and the sweeps of other directories set it too. -/

namespace Catfs

open Lib MetaM LocalMemMeta
open EStateM (Result)

def Timespec.plus (time : Timespec) (seconds : Nat) : Timespec := { time with sec := time.sec + seconds }

/-- `now` is at most `seconds` after `time`. -/
def Timespec.Within (time : Timespec) (seconds : Nat) (now : Timespec) : Prop :=
  now.sec < time.sec + seconds ∨ now.sec = time.sec + seconds ∧ now.nsec ≤ time.nsec

theorem Timespec.Within.of_fresh {d : Dentry} {now time : Timespec} {seconds : Nat} (httl : d.ttl = time.plus seconds)
    (h : d.isExpired now = false) : time.Within seconds now := by
  rw [Dentry.isExpired, httl] at h
  by_cases hsec : (time.plus seconds).sec = now.sec
  · rw [if_pos hsec] at h
    exact .inr ⟨hsec.symm, Nat.not_lt.mp (of_decide_eq_false h)⟩
  · rw [if_neg hsec] at h
    exact .inl (Nat.lt_of_le_of_ne (Nat.not_lt.mp (of_decide_eq_false h)) (Ne.symm hsec))

namespace MetaImpl
variable {ι σ : Type} {m m' : LocalMemMeta} {a : Addr} {now : Timespec}

/-- A listing of `a` has ended at the time `time`: `refresh_sub_dentries` took its last step, the sweep. -/
def ListingEnded (past : List (ι × MetaAct × World σ)) (a : Addr) (time : Timespec) : Prop :=
  ∃ i s, (i, .sweep a, s) ∈ past ∧ s.now = time

/-- A sweep would neither renew the dentry while it is complete nor mark it complete. -/
def NotListed (d : Dentry) : Prop := d.complete = false ∧ (d.isDir = true → d.childCount = 0)

/-- No step but the sweep of its own listing renews a directory that is complete, or makes one complete. -/
def RenewsOwn (_ : ι) (l : MetaAct) (x : MetaConf ι σ) : Prop :=
  match l with
  | .touch a => (x.state.cache.heap a).complete = false
  | .sweep a => ∀ e ∈ (x.state.cache.heap a).children.entries, (x.state.cache.heap e.2).synced = true →
      NotListed (x.state.cache.heap e.2)
  | _ => True

instance (d : Dentry) : Decidable (NotListed d) :=
  inferInstanceAs (Decidable (d.complete = false ∧ (d.isDir = true → d.childCount = 0)))

instance (i : ι) (l : MetaAct) (x : MetaConf ι σ) : Decidable (RenewsOwn i l x) :=
  match l with
  | .touch a => inferInstanceAs (Decidable ((x.state.cache.heap a).complete = false))
  | .sweep a => inferInstanceAs (Decidable (∀ e ∈ (x.state.cache.heap a).children.entries,
      (x.state.cache.heap e.2).synced = true → NotListed (x.state.cache.heap e.2)))
  | .find .. | .read _ | .check _ | .getDentry _ | .head _ | .list .. | .put _ | .delete _ | .insert .. | .erase ..
  | .update .. | .build .. => .isTrue trivial

/-- The cache stands still, the clock moves forward, and the bucket changes in any way. -/
structure Elapses (s s' : World σ) : Prop where
  cache : s'.cache = s.cache
  now : s.now.sec < s'.now.sec ∨ s.now.sec = s'.now.sec ∧ s.now.nsec ≤ s'.now.nsec

/-! ### The invariant -/

/-- No directory became complete, or was renewed while complete. -/
def NotRenewed (m m' : LocalMemMeta) : Prop :=
  ∀ a, a < m'.heapNext → (m'.heap a).complete = true →
    a < m.heapNext ∧ (m.heap a).complete = true ∧ (m'.heap a).ttl = (m.heap a).ttl

theorem NotRenewed.refl : NotRenewed m m := fun _ ha hc => ⟨ha, hc, rfl⟩

theorem notRenewed_set {f : Dentry → Dentry} (hc : (f (m.heap a)).complete = (m.heap a).complete)
    (ht : (m.heap a).complete = true → (f (m.heap a)).ttl = (m.heap a).ttl) : NotRenewed m (m.set a f) := by
  intro b hb hcomplete
  by_cases hba : b = a
  · subst hba
    rw [heap_set_self] at hcomplete ⊢
    rw [hc] at hcomplete
    exact ⟨hb, hcomplete, ht hcomplete⟩
  · rw [heap_set_ne hba] at hcomplete ⊢
    exact ⟨hb, hcomplete, rfl⟩

theorem notRenewed_link {p : Addr} {name : Str} {inode : Inode} (hp : p < m.heapNext) :
    NotRenewed m (m.link p name inode) := by
  intro b hb hcomplete
  rcases Nat.lt_succ_iff_lt_or_eq.mp hb with hold | rfl
  · by_cases hbp : b = p
    · subst hbp
      rw [heap_link_parent hp] at hcomplete ⊢
      exact ⟨hold, hcomplete, rfl⟩
    · rw [heap_link_other hold hbp] at hcomplete ⊢
      exact ⟨hold, hcomplete, rfl⟩
  · rw [heap_link_new name inode hp] at hcomplete
    cases hcomplete

theorem notRenewed_built {nodes : List FTreeNode} (h : Built a nodes m m') : NotRenewed m m' := by
  intro b hb hcomplete
  rcases Nat.lt_or_ge b m.heapNext with hold | hnew
  · obtain ⟨-, hc, ht⟩ := h.same b hold
    exact ⟨hold, hc ▸ hcomplete, ht⟩
  · rw [(h.fresh b hnew hb).2.1] at hcomplete
    cases hcomplete

/-- A sweep renews and completes no directory but the one whose listing it ends. -/
theorem notRenewed_swept (h : Swept a m m')
    (hown : ∀ n c, m.KeptChild a n c → NotListed (m.heap c)) {b : Addr} (hb : b < m'.heapNext) (hne : b ≠ a)
    (hcomplete : (m'.heap b).complete = true) :
    b < m.heapNext ∧ (m.heap b).complete = true ∧ (m'.heap b).ttl = (m.heap b).ttl := by
  -- The sweep gets no further than the directory and its children.
  have hvisited : ∀ v, m.Visited a v → v = a ∨ NotListed (m.heap v) ∧ (m.heap v).isDir = true := by
    intro v hv
    induction hv with
    | start => exact .inl rfl
    | @down v c n hv hc hd ih =>
      rcases ih with rfl | ⟨hno, hdir⟩
      · exact .inr ⟨hown n c hc, hd⟩
      · have hnil := List.length_eq_zero_iff.mp (hno.2 hdir)
        have hmem := AList.mem_lookup_iff.mp hc.1
        rw [hnil] at hmem
        cases hmem
  have hkept : ∀ v, m.Visited a v → ∀ n, m.KeptChild v n b → NotListed (m.heap b) := by
    intro v hv n hc
    rcases hvisited v hv with rfl | ⟨hno, hdir⟩
    · exact hown n b hc
    · have hnil := List.length_eq_zero_iff.mp (hno.2 hdir)
      have hmem := AList.mem_lookup_iff.mp hc.1
      rw [hnil] at hmem
      cases hmem
  have hnot : ¬ m.Visited a b := by
    intro hv
    obtain ⟨⟨hc, hchildren⟩, hdir⟩ := (hvisited b hv).resolve_left hne
    rw [h.complete b hv, hc, hchildren hdir] at hcomplete
    cases hcomplete
  rw [h.next] at hb
  have hbefore : (m.heap b).complete = true := (h.others b hnot).symm.trans hcomplete
  refine ⟨hb, hbefore, congrArg Dentry.ttl (h.same b hnot fun v hv n hc => ?_)⟩
  rw [(hkept v hv n hc).1] at hbefore
  cases hbefore

/-- The ttl of a complete directory was set by the end of a listing of its own. -/
structure ListedInTime (opt : MetaOpt) (x : MetaConf ι σ) : Prop where
  inv : Inv x.state.cache
  same : x.state.cache.opt = opt
  listed : ∀ a, a < x.state.cache.heapNext → (x.state.cache.heap a).complete = true →
    ∃ time, ListingEnded x.past a time ∧ (x.state.cache.heap a).ttl = time.plus opt.dcacheTimeout

variable {opt : MetaOpt} {x : MetaConf ι σ} {i : ι} {l : MetaAct} {s' : World σ}

theorem ListingEnded.after {time : Timespec} (h : ListingEnded x.past a time) :
    ListingEnded (x.after i l s').past a time := by
  obtain ⟨j, s, hmem, ht⟩ := h
  exact ⟨j, s, List.mem_append_left _ hmem, ht⟩

theorem ListedInTime.step (hx : ListedInTime opt x) (hg : RenewsOwn i l x) (h : Effect l x.state s') : ListedInTime opt (x.after i l s') := by
  obtain ⟨hc, -⟩ := h
  obtain ⟨hinv, hgrow⟩ := hc.keeps hx.inv
  refine ⟨hinv, hgrow.opt.trans hx.same, ?_⟩
  have hkeep : NotRenewed x.state.cache s'.cache → ∀ a, a < s'.cache.heapNext → (s'.cache.heap a).complete = true →
      ∃ time, ListingEnded (x.after i l s').past a time ∧
        (s'.cache.heap a).ttl = time.plus opt.dcacheTimeout := by
    intro hno a ha hcomplete
    obtain ⟨ha', hcomplete', ht⟩ := hno a ha hcomplete
    obtain ⟨time, hended, httl⟩ := hx.listed a ha' hcomplete'
    exact ⟨time, hended.after, ht.trans httl⟩
  have hsame : s'.cache = x.state.cache → NotRenewed x.state.cache s'.cache := fun h => h ▸ .refl
  cases l with
  | insert pino name =>
    refine hkeep ?_
    rcases hc with ⟨p, inode, hp, -, hc⟩ | ⟨-, hc | hc⟩
    · rw [hc]
      exact notRenewed_link (m := x.state.cache.issue) (hx.inv.indexed _ _ hp).1
    · exact hsame hc
    · rw [hc]
      exact .refl
  | erase pino name =>
    refine hkeep ?_
    rcases hc with ⟨p, -, hc⟩ | ⟨-, hc⟩
    · rw [hc]
      exact notRenewed_set rfl fun _ => rfl
    · exact hsame hc
  | touch b =>
    obtain ⟨t, -, hc⟩ := hc
    refine hkeep ?_
    rw [hc]
    refine notRenewed_set rfl fun hcomplete => ?_
    have hno : (x.state.cache.heap b).complete = false := hg
    rw [hno] at hcomplete
    cases hcomplete
  | update ino u =>
    refine hkeep ?_
    rcases hc with ⟨b, -, hc⟩ | ⟨-, hc⟩
    · rw [hc]
      exact notRenewed_set rfl fun _ => rfl
    · exact hsame hc
  | build ino names =>
    refine hkeep ?_
    rcases hc with ⟨b, nodes, -, hb⟩ | ⟨-, hc⟩
    · exact notRenewed_built hb
    · exact hsame hc
  | sweep b =>
    obtain ⟨-, hs, httl⟩ := hc
    intro a ha hcomplete
    by_cases hab : a = b
    · subst hab
      refine ⟨x.state.now, ⟨i, x.state, List.mem_append_right _ (List.mem_singleton_self _), rfl⟩, ?_⟩
      rw [← hx.same]
      exact httl
    · have hown : ∀ n c, x.state.cache.KeptChild b n c → NotListed (x.state.cache.heap c) := fun n c hk =>
        hg ⟨n, c⟩ (AList.mem_lookup_iff.mp hk.1) hk.2
      obtain ⟨ha', hcomplete', ht⟩ := notRenewed_swept hs hown ha hab hcomplete
      obtain ⟨time, hended, httl'⟩ := hx.listed a ha' hcomplete'
      exact ⟨time, hended.after, ht.trans httl'⟩
  | find => exact hkeep (hsame hc)
  | read => exact hkeep (hsame hc)
  | check => exact hkeep (hsame hc)
  | getDentry => exact hkeep (hsame hc)
  | head => exact hkeep (hsame hc)
  | list => exact hkeep (hsame hc)
  | put => exact hkeep (hsame hc)
  | delete => exact hkeep (hsame hc)

theorem ListedInTime.elapses (hx : ListedInTime opt x) (h : Elapses x.state s') : ListedInTime opt { x with state := s' } where
  inv := h.cache ▸ hx.inv
  same := h.cache ▸ hx.same
  listed := by
    rw [h.cache]
    exact hx.listed

/-! ### Every run -/

section
variable [DecidableEq ι]

theorem timely_runs (reqs : ι → Request) (opt : MetaOpt) (st : Stor σ) (fuel : Nat) (t : σ) (now₀ now : Timespec)
    (garbage : Garbage) {y : Pool ι MetaAct Err (World σ) Unit}
    (h : Pool.Runs RenewsOwn Elapses (.start (fun i => (reqs i).prog opt st fuel) ⟨.new opt now₀, t, now, garbage⟩) y) :
    ListedInTime opt y.conf := by
  have hmoving : Pool.Moving CacheGrow (fun l s s' => True ∧ Effect l s s') CacheInv (fun _ _ _ => True)
      (Pool.start (fun i => (reqs i).prog opt st fuel) ⟨.new opt now₀, t, now, garbage⟩) := fun i =>
    ⟨fun _ => True, Prog.persists_true, trivial, acts_request (fun _ => trivial) (reqs i)⟩
  have hstart : ListedInTime opt (⟨[], ⟨.new opt now₀, t, now, garbage⟩⟩ : MetaConf ι σ) := by
    refine ⟨Reachable.inv (.new now₀), rfl, fun a ha hcomplete => ?_⟩
    obtain rfl : a = 0 := Nat.lt_one_iff.mp ha
    cases hcomplete
  refine (Pool.invariant (J := ListedInTime opt) (fun _ hx => hx.inv) ?_ ?_ hmoving hstart h).1
  · intro i l x s' hx hg hs
    exact ⟨hx.step hg hs.2, (hs.2.1.keeps hx.inv).2⟩
  · intro x s' hx hs
    refine ⟨hx.elapses hs, ?_⟩
    rw [CacheGrow, hs.cache]
    exact .refl _

/-- A listing that needs no refresh was made within the timeout. -/
theorem listings_timely (reqs : ι → Request) (opt : MetaOpt) (st : Stor σ) (fuel : Nat) (t : σ) (now₀ now : Timespec)
    (garbage : Garbage) {y : Pool ι MetaAct Err (World σ) Unit}
    (h : Pool.Runs RenewsOwn Elapses (.start (fun i => (reqs i).prog opt st fuel) ⟨.new opt now₀, t, now, garbage⟩) y)
    {ino : InodeID} (ha : y.conf.state.cache.lookup ino = some a) {s : World σ}
    (hcached : (needsRefresh a).run y.conf.state = .ok false s) :
    ∃ time, ListingEnded y.conf.past a time ∧ time.Within opt.dcacheTimeout y.conf.state.now := by
  have htimely := timely_runs reqs opt st fuel t now₀ now garbage h
  obtain ⟨hneeds, -⟩ := Result.ok.inj hcached
  obtain ⟨hcomplete, hexp⟩ := Bool.or_eq_false_iff.mp hneeds
  obtain ⟨time, hended, httl⟩ := htimely.listed a (htimely.inv.indexed _ _ ha).1 (by simpa using hcomplete)
  exact ⟨time, hended, .of_fresh httl hexp⟩

end

/-! ### Two runs -/

/-- The clock shows `now`. -/
def atTime (now : Timespec) (x : Pool Nat MetaAct Err (World Log) Unit) : Pool Nat MetaAct Err (World Log) Unit :=
  { x with conf := { x.conf with state := { x.conf.state with now } } }

/-- The threads `is` take a step each, and the clock then shows `now`. -/
def execUntil (ok : Nat → MetaAct → MetaConf Nat Log → Bool) (is : List Nat) (now : Timespec)
    (x : Pool Nat MetaAct Err (World Log) Unit) : Option (Pool Nat MetaAct Err (World Log) Unit) :=
  (x.exec ok is).bind fun y => if y.conf.state.now.sec < now.sec then some (atTime now y) else none

theorem runs_execUntil {guard : Nat → MetaAct → MetaConf Nat Log → Prop} {ok : Nat → MetaAct → MetaConf Nat Log → Bool}
    (hok : ∀ i l x, ok i l x = true → guard i l x) {is : List Nat} {now : Timespec}
    {x z : Pool Nat MetaAct Err (World Log) Unit} (h : execUntil ok is now x = some z) : Pool.Runs guard Elapses x z := by
  obtain ⟨y, hy, hz⟩ := Option.bind_eq_some_iff.mp h
  split at hz
  · rename_i hlt
    cases hz
    exact .tail (Pool.runs_exec hok hy) (.env ⟨rfl, .inl hlt⟩)
  · cases hz

/-- A listing of the root, one of `d` in it, and a lookup of `d`. -/
def listAndFind (i : Nat) : Request :=
  match i with
  | 0 => .load ROOT_INODE_ID
  | 1 => .load 2
  | _ => .find ROOT_INODE_ID ['d']

/-- They are made on a new mount. -/
def listsAndFinds (log : Log) : Pool Nat MetaAct Err (World Log) Unit :=
  .start (fun i => (listAndFind i).prog ⟨0, 0, 60⟩ (s3Stor Log.client) 1) (newWorld log)

/-- The root is listed, and a minute passes. -/
theorem listings_timely_root : ∃ y s, Pool.Runs RenewsOwn Elapses (listsAndFinds (Log.holding ['x'])) y ∧
    (needsRefresh 0).run y.conf.state = .ok false s ∧
    ∃ time, ListingEnded y.conf.past 0 time ∧ time.Within 60 y.conf.state.now := by
  have hrun : (execUntil (fun i l x => decide (RenewsOwn i l x)) (List.replicate 8 0) ⟨60, 0⟩
      (listsAndFinds (Log.holding ['x']))).any (fun y => decide (y.conf.state.cache.lookup ROOT_INODE_ID = some 0) &&
        decide ((!(y.conf.state.cache.heap 0).complete || (y.conf.state.cache.heap 0).isExpired y.conf.state.now) = false)) = true := by
    decide +kernel
  obtain ⟨y, hy, hend⟩ := (Option.any_eq_true _ _).mp hrun
  obtain ⟨hroot, hfresh⟩ := Bool.and_eq_true_iff.mp hend
  have hruns : Pool.Runs RenewsOwn Elapses (.start (fun i => (listAndFind i).prog ⟨0, 0, 60⟩ (s3Stor Log.client) 1)
      (newWorld (Log.holding ['x']))) y := runs_execUntil (fun _ _ _ => of_decide_eq_true) hy
  have hcached : (needsRefresh 0).run y.conf.state = .ok false y.conf.state :=
    congrArg (Result.ok · y.conf.state) (of_decide_eq_true hfresh)
  exact ⟨y, _, hruns, hcached, listings_timely listAndFind ⟨0, 0, 60⟩ (s3Stor Log.client) 1 _ ⟨0, 0⟩ ⟨0, 0⟩ noGarbage hruns
    (of_decide_eq_true hroot) hcached⟩

/-- The lookup of `d` renews it when it is expired: after 100 seconds its listing is the one made at the start. -/
theorem listing_stale : ∃ y s, Pool.Runs (fun _ _ _ => True) Elapses (listsAndFinds (Log.holding ['d', '/', 'x'])) y ∧
    y.conf.state.cache.lookup 2 = some 1 ∧ (needsRefresh 1).run y.conf.state = .ok false s ∧
    ¬ ∃ time, ListingEnded y.conf.past 1 time ∧ time.Within 60 y.conf.state.now := by
  have hrun : ((execUntil (fun _ _ _ => true) (List.replicate 8 0 ++ List.replicate 8 1) ⟨61, 0⟩
      (listsAndFinds (Log.holding ['d', '/', 'x']))).bind (execUntil (fun _ _ _ => true) (List.replicate 7 2) ⟨100, 0⟩)).any
      (fun y => decide (y.conf.state.cache.lookup 2 = some 1) &&
        decide ((!(y.conf.state.cache.heap 1).complete || (y.conf.state.cache.heap 1).isExpired y.conf.state.now) = false) &&
        decide (y.conf.state.now = ⟨100, 0⟩) &&
        y.conf.past.all fun e => decide (e.2.1 = .sweep 1 → e.2.2.now = ⟨0, 0⟩)) = true := by decide +kernel
  obtain ⟨y, hy, hend⟩ := (Option.any_eq_true _ _).mp hrun
  obtain ⟨x, hx, hy⟩ := Option.bind_eq_some_iff.mp hy
  simp only [Bool.and_eq_true, List.all_eq_true, decide_eq_true_eq] at hend
  obtain ⟨⟨⟨hdir, hfresh⟩, hnow⟩, hpast⟩ := hend
  refine ⟨y, y.conf.state, .trans (runs_execUntil (fun _ _ _ _ => trivial) hx) (runs_execUntil (fun _ _ _ _ => trivial) hy), hdir,
    congrArg (Result.ok · y.conf.state) hfresh, ?_⟩
  rintro ⟨time, ⟨i, s, hmem, rfl⟩, hwithin⟩
  rw [hpast _ hmem rfl, hnow] at hwithin
  rcases hwithin with h | ⟨h, -⟩
  · exact absurd h (by decide)
  · exact absurd h (by decide)

end MetaImpl

end Catfs
