import Catfs.Lib.Namespace
import Catfs.Theorems.TreeShape

/-! # The namespace that the cache shows

The paths of the dentries in the tree, with their inodes. A call that names its directory by number changes this
map at and below one path, or not at all when the directory is not in the tree (`refines_names`). -/

namespace Catfs

open Lib
open EStateM (Result)

namespace LocalMemMeta
variable {m m' : LocalMemMeta} {a d p : Addr} {n name : Str} {inode : Inode} {P Q : List Str}

/-! ### The map -/

/-- The inodes of the dentries in the tree, by the names on the way to them from the root. -/
def entries (m : LocalMemMeta) : Namespace Str Inode :=
  paths (fun a n => (m.heap a).getChild n) (fun a => (m.heap a).inode) m.rootDentry

/-- The way from the root. -/
abbrev walkFrom (m : LocalMemMeta) : List Str → Option Addr := walk (fun a n => (m.heap a).getChild n) m.rootDentry

theorem attached_of_walk (h : m.walkFrom P = some a) : Attached m a := by
  induction P using List.reverseRecOn generalizing a with
  | nil =>
    obtain rfl := Option.some.inj h
    exact .root
  | append_singleton P n ih =>
    obtain ⟨b, hb, hc⟩ := walk_concat_some h
    exact (ih hb).child hc

theorem Attached.walk (h : Attached m a) : ∃ P, m.walkFrom P = some a := by
  induction h with
  | root => exact ⟨[], rfl⟩
  | @child b c n _ hc ih =>
    obtain ⟨P, hP⟩ := ih
    exact ⟨P ++ [n], by rw [walkFrom, walk_concat, show Lib.walk _ _ P = _ from hP]; exact hc⟩

theorem walk_allocated (hm : Inv m) (h : m.walkFrom P = some a) : a < m.heapNext := (attached_of_walk h).allocated hm

/-- The way from `d`. -/
abbrev wayFrom (m : LocalMemMeta) (d : Addr) (P : List Str) : Option Addr := Lib.walk (fun a n => (m.heap a).getChild n) d P

theorem wayFrom_allocated (hm : Inv m) (hd : d < m.heapNext) (h : m.wayFrom d P = some a) : a < m.heapNext ∧ d ≤ a := by
  induction P using List.reverseRecOn generalizing a with
  | nil =>
    obtain rfl := Option.some.inj h
    exact ⟨hd, Nat.le_refl _⟩
  | append_singleton P n ih =>
    obtain ⟨b, hb, hc⟩ := walk_concat_some h
    obtain ⟨hlt, hle⟩ := ih hb
    obtain ⟨hbc, hcn, -⟩ := hm.child b n a hlt hc
    exact ⟨hcn, Nat.le_of_lt (Nat.lt_of_le_of_lt hle hbc)⟩

/-- The dentries below another one are younger. -/
theorem wayFrom_lt (hm : Inv m) (hd : d < m.heapNext) (h : m.wayFrom d (P ++ [n]) = some a) : d < a := by
  obtain ⟨b, hb, hc⟩ := walk_concat_some h
  obtain ⟨hlt, hle⟩ := wayFrom_allocated hm hd hb
  exact Nat.lt_of_le_of_lt hle (hm.child b n a hlt hc).1

/-- Names and parents lead back to where a way began. -/
theorem wayFrom_unambiguous (hm : Inv m) (hd : d < m.heapNext) : Unambiguous (fun a n => (m.heap a).getChild n) d := by
  intro P
  induction P using List.reverseRecOn with
  | nil =>
    intro Q a hP hQ
    obtain rfl := Option.some.inj hP
    rcases List.eq_nil_or_concat Q with rfl | ⟨Q, n, rfl⟩
    · rfl
    · rw [List.concat_eq_append] at hQ
      exact absurd (wayFrom_lt hm hd hQ) (Nat.lt_irrefl _)
  | append_singleton P n ih =>
    intro Q a hP hQ
    rcases List.eq_nil_or_concat Q with rfl | ⟨Q, k, rfl⟩
    · obtain rfl := Option.some.inj hQ
      exact absurd (wayFrom_lt hm hd hP) (Nat.lt_irrefl _)
    · rw [List.concat_eq_append] at hQ ⊢
      obtain ⟨b, hb, hc⟩ := walk_concat_some hP
      obtain ⟨b', hb', hc'⟩ := walk_concat_some hQ
      obtain ⟨-, -, hname, hparent⟩ := hm.child b n a (wayFrom_allocated hm hd hb).1 hc
      obtain ⟨-, -, hname', hparent'⟩ := hm.child b' k a (wayFrom_allocated hm hd hb').1 hc'
      obtain rfl : b = b' := Option.some.inj (hparent.symm.trans hparent')
      rw [ih Q b hb hb', ← hname, ← hname']

theorem unambiguous (hm : Inv m) : Unambiguous (fun a n => (m.heap a).getChild n) m.rootDentry :=
  wayFrom_unambiguous hm (hm.root ▸ hm.rootPos)

theorem entries_finite (hm : Inv m) : {P | m.entries P ≠ none}.Finite :=
  paths_finite (unambiguous hm) ((Set.finite_lt_nat m.heapNext).subset fun _ ⟨_, h⟩ => walk_allocated hm h)

/-- The dentry with the number of an entry is at the entry's path. -/
theorem walk_of_entry (hm : Inv m) {i : Inode} (h : m.entries P = some i) :
    ∃ a, m.lookup i.ino = some a ∧ m.walkFrom P = some a ∧ (m.heap a).inode = i := by
  obtain ⟨a, ha, rfl⟩ := paths_eq_some.mp h
  exact ⟨a, hm.index a (walk_allocated hm ha), ha, rfl⟩

/-! ### The changes -/

/-- A new dentry ends every way that passed its name. -/
theorem wayFrom_link (hm : Inv m) (hd : d < m.heapNext) (hP : m.wayFrom d P = some p) :
    (m.link p n inode).wayFrom d Q = if P ++ [n] <+: Q then if Q = P ++ [n] then some m.heapNext else none else m.wayFrom d Q := by
  have hp := (wayFrom_allocated hm hd hP).1
  have hother : ∀ a k, Lib.Reached (fun a n => (m.heap a).getChild n) d a → ¬ (a = p ∧ k = n) →
      ((m.link p n inode).heap a).getChild k = (m.heap a).getChild k := by
    rintro a k ⟨R, hR⟩ hne
    have ha := (wayFrom_allocated hm hd hR).1
    by_cases hap : a = p
    · rw [hap, heap_link_parent hp, Dentry.getChild, AList.lookup_insert_ne fun hk => hne ⟨hap, hk⟩, Dentry.getChild]
    · rw [heap_link_other ha hap]
  have hchild : ((m.link p n inode).heap p).getChild n = some m.heapNext := by
    rw [heap_link_parent hp, Dentry.getChild, AList.lookup_insert]
  have hleaf : ∀ k, ((m.link p n inode).heap m.heapNext).getChild k = none := by
    intro k
    rw [heap_link_new _ _ hp]
    rfl
  have hu := wayFrom_unambiguous hm hd
  by_cases hpre : P ++ [n] <+: Q
  · rw [if_pos hpre, wayFrom, walk_through hu hP hother hpre, hchild]
    obtain ⟨R, rfl⟩ := hpre
    have hlen : (P ++ [n]).length = P.length + 1 := by simp
    rw [← hlen, List.drop_left, Option.bind_some]
    cases R with
    | nil => rw [List.append_nil, if_pos rfl, walk_nil]
    | cons k R =>
      rw [if_neg (by simp), Lib.walk, hleaf]
      rfl
  · rw [if_neg hpre]
    exact walk_beside hu hP hother hpre

theorem wayFrom_erase (hm : Inv m) (hd : d < m.heapNext) (hP : m.wayFrom d P = some p) :
    (m.set p fun d => { d with children := d.children.erase n }).wayFrom d Q = if P ++ [n] <+: Q then none else m.wayFrom d Q := by
  have hother : ∀ a k, Lib.Reached (fun a n => (m.heap a).getChild n) d a → ¬ (a = p ∧ k = n) →
      ((m.set p fun d => { d with children := d.children.erase n }).heap a).getChild k = (m.heap a).getChild k := by
    intro a k _ hne
    by_cases hap : a = p
    · rw [hap, heap_set_self, Dentry.getChild, AList.lookup_erase_ne fun hk => hne ⟨hap, hk⟩, Dentry.getChild]
    · rw [heap_set_ne hap]
  have hnone : ((m.set p fun d => { d with children := d.children.erase n }).heap p).getChild n = none := by
    rw [heap_set_self, Dentry.getChild, AList.lookup_erase]
  have hu := wayFrom_unambiguous hm hd
  by_cases hpre : P ++ [n] <+: Q
  · rw [if_pos hpre, wayFrom, walk_through hu hP hother hpre, hnone]
    rfl
  · rw [if_neg hpre]
    exact walk_beside hu hP hother hpre

section
variable (hm : Inv m)
include hm

theorem entries_link (hp : p < m.heapNext) (hP : m.walkFrom P = some p) :
    (m.link p name inode).entries = m.entries.graft (P ++ [name]) inode := by
  have hnew := heap_link_new (m := m) name inode hp
  refine paths_graft (unambiguous hm) hP ?_ ?_ (c := m.heapNext) ?_ ?_ ?_
  · intro a k ha hne
    obtain ⟨Q, hQ⟩ := ha
    have hlt := walk_allocated hm hQ
    by_cases hap : a = p
    · rw [hap, heap_link_parent hp, Dentry.getChild, AList.lookup_insert_ne fun hk => hne ⟨hap, hk⟩, Dentry.getChild]
    · rw [heap_link_other hlt hap]
  · intro a ha
    obtain ⟨Q, hQ⟩ := ha
    have hlt := walk_allocated hm hQ
    by_cases hap : a = p
    · rw [hap, heap_link_parent hp]
    · rw [heap_link_other hlt hap]
  · rw [heap_link_parent hp, Dentry.getChild, AList.lookup_insert]
  · intro k
    rw [hnew]
    rfl
  · rw [hnew]
    rfl

theorem entries_link_detached (hdet : ¬ Attached m p) :
    (m.link p name inode).entries = m.entries := by
  have hother : ∀ a, Reached (fun a n => (m.heap a).getChild n) m.rootDentry a →
      (m.link p name inode).heap a = m.heap a := by
    intro a ha
    obtain ⟨Q, hQ⟩ := ha
    exact heap_link_other (walk_allocated hm hQ) fun h => hdet (h ▸ attached_of_walk hQ)
  exact paths_congr (fun a n ha => by rw [hother a ha]) fun a ha => by rw [hother a ha]

theorem entries_erase (hP : m.walkFrom P = some p) :
    (m.set p fun d => { d with children := d.children.erase name }).entries = m.entries.prune (P ++ [name]) := by
  refine paths_prune (unambiguous hm) hP ?_ ?_ ?_
  · intro a k _ hne
    by_cases hap : a = p
    · rw [hap, heap_set_self, Dentry.getChild, AList.lookup_erase_ne fun hk => hne ⟨hap, hk⟩, Dentry.getChild]
    · rw [heap_set_ne hap]
  · intro a _
    by_cases hap : a = p
    · rw [hap, heap_set_self]
    · rw [heap_set_ne hap]
  · rw [heap_set_self, Dentry.getChild, AList.lookup_erase]

theorem entries_apply {u : InodeUpdateAttr} (hP : m.walkFrom P = some p) :
    (m.set p (InodeUpdateAttr.apply u)).entries = m.entries.modify P fun i =>
      { i with size := u.size.getD i.size, mode := u.mode.getD i.mode, uid := u.uid.getD i.uid, gid := u.gid.getD i.gid } := by
  refine paths_modify (unambiguous hm) hP ?_ ?_ ?_
  · intro a n _
    by_cases hap : a = p
    · rw [hap, heap_set_self]
      rfl
    · rw [heap_set_ne hap]
  · intro a _ hap
    rw [heap_set_ne hap]
  · rw [heap_set_self]
    rfl

omit hm in
theorem entries_set_detached {f : Dentry → Dentry} (hdet : ¬ Attached m p) : (m.set p f).entries = m.entries := by
  have hother : ∀ a, Reached (fun a n => (m.heap a).getChild n) m.rootDentry a → (m.set p f).heap a = m.heap a := by
    intro a ha
    obtain ⟨Q, hQ⟩ := ha
    exact heap_set_ne fun h => hdet (h ▸ attached_of_walk hQ)
  exact paths_congr (fun a n ha => by rw [hother a ha]) fun a ha => by rw [hother a ha]

end

/-! ### Calls -/

/-- The calls of the cache on one entry, and the one that makes the inode for a new entry. -/
inductive CacheCall where
  | newInode (now : Timespec) (mode : Mode) (gid uid : Nat)
  | create (pino : InodeID) (name : Str) (inode : Inode)
  | createFromObj (now : Timespec) (pino : InodeID) (name : Str) (obj : ObjInfo) (isDir : Bool)
  | find (pino : InodeID) (name : Str)
  | remove (pino : InodeID) (name : Str)
  | update (ino : InodeID) (updater : InodeUpdateAttr)

/-- `entry` is the inode of the dentry that a call returns, if it returns one. -/
inductive Answer where
  | entry (inode : Option Inode)
  | done
  | throws (e : Err)
  deriving DecidableEq, Repr

namespace CacheCall

def exec : CacheCall → LocalM Answer
  | newInode now mode gid uid => do
    let inode ← createNewInode now mode gid uid
    pure (.entry (some inode))
  | create pino name inode => do
    let d ← createDentry pino name inode
    return .entry (some (← load d).inode)
  | createFromObj now pino name obj isDir => do
    let d ← createDentryFromObj now pino name obj isDir
    return .entry (some (← load d).inode)
  | find pino name => do
    match ← findDentry pino name with
    | none => pure (.entry none)
    | some d => return .entry (some (← load d).inode)
  | remove pino name => do
    removeDentry pino name
    pure .done
  | update ino updater => do
    updateInode ino updater
    pure .done

/-- The number by which a call names a dentry. -/
def target : CacheCall → Option InodeID
  | newInode .. => none
  | create pino .. => some pino
  | createFromObj _ pino .. => some pino
  | find pino _ => some pino
  | remove pino _ => some pino
  | update ino _ => some ino

/-- An inode that is entered was made for the entry. -/
def Admissible (m : LocalMemMeta) : CacheCall → Prop
  | create _ _ inode => Fresh m inode.ino
  | _ => True

end CacheCall

def answer : Result Err LocalMemMeta Answer → Answer
  | .ok r _ => r
  | .error e _ => .throws e

def runCalls : LocalMemMeta → List CacheCall → LocalMemMeta
  | m, [] => m
  | m, call :: calls => runCalls (endState (call.exec m)) calls

def answers : LocalMemMeta → List CacheCall → List (CacheCall × Answer)
  | _, [] => []
  | m, call :: calls => (call, answer (call.exec m)) :: answers (endState (call.exec m)) calls

def AdmissibleRun : LocalMemMeta → List CacheCall → Prop
  | _, [] => True
  | m, call :: calls => call.Admissible m ∧ AdmissibleRun (endState (call.exec m)) calls

end LocalMemMeta

/-! ### What the calls are for -/

open LocalMemMeta

/-- What the cache is to its users: the entries by their paths, and the numbers that were given to an entry. -/
structure Names where
  entries : Namespace Str Inode
  known : InodeID → Prop

namespace Names

/-- The entry with the number `ino` is at the path `P`. -/
def At (s : Names) (ino : InodeID) (P : List Str) : Prop := ∃ i, s.entries P = some i ∧ i.ino = ino

/-- The inode of a new entry for an object. -/
def objectInode (opt : MetaOpt) (now : Timespec) (obj : ObjInfo) (isDir : Bool) (ino : InodeID) : Inode :=
  let mode := if isDir then S_IFDIR ||| 0o766#32 else S_IFREG ||| 0o644#32
  let time := if isDir then now else ⟨0, 0⟩
  { ino, size := obj.size, ctime := time, mtime := time
    uid := obj.uid.getD opt.uid
    gid := obj.gid.getD opt.gid
    mode := (obj.mode.map (withPerm mode)).getD mode }

/-- The attributes that are given replace those of the inode. -/
def updated (u : InodeUpdateAttr) (i : Inode) : Inode :=
  { i with size := u.size.getD i.size, mode := u.mode.getD i.mode, uid := u.uid.getD i.uid, gid := u.gid.getD i.gid }

/-- `inode` at the path `P`, under a number not known before. -/
def enter (s : Names) (P : List Str) (inode : Inode) : Names :=
  { entries := s.entries.graft P inode, known := fun i => i = inode.ino ∨ s.known i }

/-- What a call does to the names, and what it answers. -/
inductive Step (opt : MetaOpt) : Names → CacheCall → Answer → Names → Prop where
  /-- Nothing was ever entered under this number. -/
  | unknown {s : Names} {call : CacheCall} {ino : InodeID} (htarget : call.target = some ino) (h : ¬ s.known ino) :
      Step opt s call (.throws (.invalidInodeID ino)) s
  /-- What has this number is no longer an entry. -/
  | detached {s s' : Names} {call : CacheCall} {r : Answer} {ino : InodeID} (htarget : call.target = some ino)
      (h : s.known ino) (hdet : ∀ P, ¬ s.At ino P) (hsame : s'.entries = s.entries)
      (hgrow : ∀ i, s.known i → s'.known i) : Step opt s call r s'
  | newInode {s : Names} {now : Timespec} {mode : Mode} {gid uid : Nat} {ino : InodeID} (hfresh : ¬ s.known ino) :
      Step opt s (.newInode now mode gid uid) (.entry (some { ino, size := 0, ctime := now, mtime := now, mode, uid, gid })) s
  | create {s : Names} {pino : InodeID} {name : Str} {inode : Inode} {P : List Str} (h : s.At pino P)
      (hfresh : ¬ s.known inode.ino) :
      Step opt s (.create pino name inode) (.entry (some inode)) (s.enter (P ++ [name]) inode)
  | createFromObj {s : Names} {now : Timespec} {pino ino : InodeID} {name : Str} {obj : ObjInfo} {isDir : Bool}
      {P : List Str} (h : s.At pino P) (hfresh : ¬ s.known ino) :
      Step opt s (.createFromObj now pino name obj isDir) (.entry (some (objectInode opt now obj isDir ino)))
        (s.enter (P ++ [name]) (objectInode opt now obj isDir ino))
  | find {s : Names} {pino : InodeID} {name : Str} {P : List Str} (h : s.At pino P) :
      Step opt s (.find pino name) (.entry (s.entries (P ++ [name]))) s
  | remove {s : Names} {pino : InodeID} {name : Str} {P : List Str} (h : s.At pino P) :
      Step opt s (.remove pino name) .done { s with entries := s.entries.prune (P ++ [name]) }
  | update {s : Names} {ino : InodeID} {u : InodeUpdateAttr} {P : List Str} (h : s.At ino P) :
      Step opt s (.update ino u) .done { s with entries := s.entries.modify P (updated u) }

inductive Runs (opt : MetaOpt) : Names → List (CacheCall × Answer) → Names → Prop where
  | nil {s : Names} : Runs opt s [] s
  | cons {s s' s'' : Names} {call : CacheCall} {r : Answer} {calls : List (CacheCall × Answer)}
      (h : Step opt s call r s') (hrest : Runs opt s' calls s'') : Runs opt s ((call, r) :: calls) s''

end Names

/-! ### The simulation -/

namespace LocalMemMeta
variable {m : LocalMemMeta} {p : Addr} {ino : InodeID}

def names (m : LocalMemMeta) : Names := { entries := m.entries, known := fun ino => ∃ a, m.lookup ino = some a }

/-- A dentry in the index is in the tree, at the path of its number, or is no entry. -/
theorem at_or_detached (hm : Inv m) (hp : m.lookup ino = some p) :
    (∃ P, m.walkFrom P = some p ∧ m.names.At ino P) ∨ (¬ Attached m p ∧ ∀ P, ¬ m.names.At ino P) := by
  obtain ⟨-, hino⟩ := hm.indexed _ _ hp
  by_cases hatt : Attached m p
  · obtain ⟨P, hP⟩ := hatt.walk
    exact .inl ⟨P, hP, _, paths_eq_some.mpr ⟨p, hP, rfl⟩, hino⟩
  · refine .inr ⟨hatt, fun P hat => ?_⟩
    obtain ⟨i, hi, hiino⟩ := hat
    obtain ⟨a, ha, hw, -⟩ := walk_of_entry hm hi
    rw [hiino, hp] at ha
    obtain rfl := Option.some.inj ha
    exact hatt (attached_of_walk hw)

theorem not_known (hi : Fresh m ino) (hm : Inv m) : ¬ m.names.known ino := by
  intro h
  obtain ⟨a, ha⟩ := h
  obtain ⟨hlt, hino⟩ := hm.indexed _ _ ha
  exact hi.unused a hlt hino

theorem names_link {inode : Inode} {name : Str} {P : List Str} (hm : Inv m) (hp : p < m.heapNext)
    (hP : m.walkFrom P = some p) : (m.link p name inode).names = m.names.enter (P ++ [name]) inode := by
  have hknown : (m.link p name inode).names.known = fun i => i = inode.ino ∨ m.names.known i := by
    funext i
    refine propext ?_
    simp only [names, lookup_link]
    by_cases h : i = inode.ino <;> simp [h]
  rw [Names.enter, ← hknown]
  exact congrArg (Names.mk · _) (entries_link hm hp hP)

/-- A new dentry under the directory `p`. -/
theorem step_link {call : CacheCall} {name : Str} {inode : Inode} (hm : Inv m) (hp : m.lookup ino = some p)
    (hi : Fresh m inode.ino) (htarget : call.target = some ino)
    (hstep : ∀ P, m.names.At ino P →
      Names.Step m.opt m.names call (.entry (some inode)) (m.names.enter (P ++ [name]) inode)) :
    Inv (m.link p name inode) ∧ (m.link p name inode).opt = m.opt ∧
      Names.Step m.opt m.names call (.entry (some inode)) (m.link p name inode).names := by
  have halloc := (hm.indexed _ _ hp).1
  have hg : Grow m (m.link p name inode) := .link hm halloc hi
  refine ⟨hm.link halloc hi, hg.opt, ?_⟩
  rcases at_or_detached hm hp with ⟨P, hP, hat⟩ | ⟨hatt, hdet⟩
  · rw [names_link hm halloc hP]
    exact hstep P hat
  · refine .detached htarget ⟨p, hp⟩ hdet (entries_link_detached hm hatt) fun i hi => ?_
    obtain ⟨a, ha⟩ := hi
    exact ⟨a, hg.index _ _ ha⟩

/-- A change to the dentry `p` that is in the index. -/
theorem step_set {call : CacheCall} {f : Dentry → Dentry} (hf : Mild f) (hm : Inv m) (hp : m.lookup ino = some p)
    (htarget : call.target = some ino)
    (hstep : ∀ P, m.walkFrom P = some p → m.names.At ino P → Names.Step m.opt m.names call .done (m.set p f).names) :
    Inv (m.set p f) ∧ (m.set p f).opt = m.opt ∧ Names.Step m.opt m.names call .done (m.set p f).names := by
  refine ⟨hm.set hf, rfl, ?_⟩
  rcases at_or_detached hm hp with ⟨P, hP, hat⟩ | ⟨hatt, hdet⟩
  · exact hstep P hP hat
  · exact .detached htarget ⟨p, hp⟩ hdet (entries_set_detached hatt) fun i hi => hi

/-- The step lemma: a call does to the cache what it is to do to the names. -/
theorem exec_step (hm : Inv m) (call : CacheCall) (hadm : call.Admissible m) :
    Inv (endState (call.exec m)) ∧ (endState (call.exec m)).opt = m.opt ∧
      Names.Step m.opt m.names call (answer (call.exec m)) (endState (call.exec m)).names := by
  have hunknown : ∀ {ino e}, call.target = some ino → m.lookup ino = none → call.exec m = .error e m →
      e = .invalidInodeID ino → Inv (endState (call.exec m)) ∧ (endState (call.exec m)).opt = m.opt ∧
        Names.Step m.opt m.names call (answer (call.exec m)) (endState (call.exec m)).names := by
    intro ino e htarget hnone hrun he
    rw [hrun, he]
    refine ⟨hm, rfl, .unknown htarget fun h => ?_⟩
    obtain ⟨a, ha⟩ := h
    rw [hnone] at ha
    cases ha
  cases call with
  | newInode now mode gid uid =>
    refine ⟨hm.issue, rfl, .newInode fun h => ?_⟩
    obtain ⟨a, ha⟩ := h
    obtain ⟨hlt, hino⟩ := hm.indexed _ _ ha
    exact hm.fresh.unused a hlt hino
  | create pino name inode =>
    cases hp : m.lookup pino with
    | none => exact hunknown rfl hp (bind_error (run_createDentry_none hp)) rfl
    | some p =>
      have halloc := (hm.indexed _ _ hp).1
      have hrun : (CacheCall.create pino name inode).exec m = .ok (.entry (some inode)) (m.link p name inode) := by
        rw [CacheCall.exec, bind_ok (run_createDentry hp halloc), bind_ok run_load, heap_link_new name inode halloc]
        rfl
      rw [hrun]
      exact step_link hm hp hadm rfl fun P hat => .create hat (not_known hadm hm)
  | createFromObj now pino name obj isDir =>
    cases hp : m.lookup pino with
    | none => exact hunknown rfl hp (bind_error (run_createDentryFromObj_none hp)) rfl
    | some p =>
      have halloc := (hm.indexed _ _ hp).1
      have hnew := heap_link_new (m := m.issue) name (m.objInode now obj isDir) halloc
      have hrun : (CacheCall.createFromObj now pino name obj isDir).exec m =
          .ok (.entry (some (m.objInode now obj isDir))) (m.issue.link p name (m.objInode now obj isDir)) := by
        rw [CacheCall.exec, bind_ok (run_createDentryFromObj hp halloc), bind_ok run_load]
        rw [heapNext_issue] at hnew
        rw [hnew]
        rfl
      rw [hrun]
      exact step_link (m := m.issue) hm.issue hp hm.fresh rfl fun P hat => .createFromObj hat (not_known hm.fresh hm.issue)
  | find pino name =>
    cases hp : m.lookup pino with
    | none => exact hunknown rfl hp (bind_error (run_findDentry_none hp)) rfl
    | some p =>
      have hrun : (CacheCall.find pino name).exec m =
          .ok (.entry (((m.heap p).getChild name).map fun a => (m.heap a).inode)) m := by
        rw [CacheCall.exec, bind_ok (run_findDentry hp)]
        cases (m.heap p).getChild name <;> rfl
      rw [hrun]
      refine ⟨hm, rfl, ?_⟩
      rcases at_or_detached hm hp with ⟨P, hP, hat⟩ | ⟨-, hdet⟩
      · have hentry : ((m.heap p).getChild name).map (fun a => (m.heap a).inode) = m.names.entries (P ++ [name]) := by
          show _ = (walk _ _ _).map _
          rw [walk_concat, show walk _ _ _ = _ from hP, Option.bind_some]
        rw [hentry]
        exact .find hat
      · exact .detached rfl ⟨p, hp⟩ hdet rfl fun _ hi => hi
  | remove pino name =>
    cases hp : m.lookup pino with
    | none => exact hunknown rfl hp (bind_error (run_removeDentry_none hp)) rfl
    | some p =>
      have hrun : (CacheCall.remove pino name).exec m =
          .ok .done (m.set p fun d => { d with children := d.children.erase name }) := by
        rw [CacheCall.exec, bind_ok (run_removeDentry hp)]
        rfl
      rw [hrun]
      refine step_set Mild.erase hm hp rfl fun P hP hat => ?_
      have hnames : (m.set p fun d => { d with children := d.children.erase name }).names =
          { m.names with entries := m.names.entries.prune (P ++ [name]) } := congrArg (Names.mk · _) (entries_erase hm hP)
      rw [hnames]
      exact .remove hat
  | update ino u =>
    cases hp : m.lookup ino with
    | none => exact hunknown rfl hp (bind_error (run_updateInode_none hp)) rfl
    | some p =>
      have hrun : (CacheCall.update ino u).exec m = .ok .done (m.set p (InodeUpdateAttr.apply u)) := by
        rw [CacheCall.exec, bind_ok (run_updateInode hp)]
        rfl
      rw [hrun]
      refine step_set Mild.apply hm hp rfl fun P hP hat => ?_
      have hnames : (m.set p (InodeUpdateAttr.apply u)).names =
          { m.names with entries := m.names.entries.modify P (Names.updated u) } :=
        congrArg (Names.mk · _) (entries_apply hm hP)
      rw [hnames]
      exact .update hat

/-- The run lemma. -/
theorem runs_names (hm : Inv m) {calls : List CacheCall} (h : AdmissibleRun m calls) :
    Inv (runCalls m calls) ∧ Names.Runs m.opt m.names (answers m calls) (runCalls m calls).names := by
  induction calls generalizing m with
  | nil => exact ⟨hm, .nil⟩
  | cons call calls ih =>
    obtain ⟨hadm, hrest⟩ := h
    obtain ⟨hinv, hopt, hstep⟩ := exec_step hm call hadm
    obtain ⟨hend, hruns⟩ := ih hinv hrest
    rw [hopt] at hruns
    exact ⟨hend, .cons hstep hruns⟩

end LocalMemMeta

namespace MetaImpl

/-- The cache refines the namespace that it shows: from any reachable cache, every sequence of calls answers and
    changes the map of its entries, which stays finite, as the calls are to answer and change it. -/
theorem refines_names {opt : MetaOpt} {m : LocalMemMeta} (hm : Reachable opt m) (calls : List CacheCall)
    (h : AdmissibleRun m calls) :
    Names.Runs m.opt m.names (answers m calls) (runCalls m calls).names ∧
      {P | (runCalls m calls).names.entries P ≠ none}.Finite := by
  obtain ⟨hinv, hruns⟩ := runs_names hm.inv h
  exact ⟨hruns, entries_finite hinv⟩

/-- A file and a directory are entered, the directory is removed and then addressed by its number, and so is one that
    was never entered. -/
def someCalls : List CacheCall :=
  [.newInode ⟨0, 0⟩ S_IFREG 0 0, .create ROOT_INODE_ID ['f'] ⟨2, 0, ⟨0, 0⟩, ⟨0, 0⟩, S_IFREG, 0, 0⟩,
    .createFromObj ⟨0, 0⟩ ROOT_INODE_ID ['d'] ObjInfo.zero true, .createFromObj ⟨0, 0⟩ 3 ['x'] ObjInfo.zero false,
    .remove ROOT_INODE_ID ['d'], .find 3 ['x'], .update 2 ⟨some 5, none, none, none⟩, .find ROOT_INODE_ID ['f'], .find 9 ['x']]

theorem refines_names_someCalls :
    Names.Runs newCache.opt newCache.names (answers newCache someCalls) (runCalls newCache someCalls).names ∧
      {P | (runCalls newCache someCalls).names.entries P ≠ none}.Finite := by
  have hadm : AdmissibleRun newCache someCalls :=
    ⟨trivial, ⟨by decide, by decide⟩, trivial, trivial, trivial, trivial, trivial, trivial, trivial, trivial⟩
  exact refines_names (show Reachable ⟨0, 0, 60⟩ newCache from .new ⟨0, 0⟩) someCalls hadm

end MetaImpl

end Catfs
