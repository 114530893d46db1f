import Catfs.Lib.Along
import Catfs.Theorems.Build
import Catfs.Theorems.MetaKeeps
import Catfs.Theorems.Sweep

/-! # Sweeps that remove nothing

A child without a mark is erased from the map that the sweep walks over, which the process need not survive. Which
children the sweep at the end of a refresh meets without a mark is fixed before the refresh begins: a child of its
directory that no page lists and that carries no mark, or one further down, which no page reaches
(`Built.nothingToSweep_iff`). -/

namespace Catfs

open Lib
open EStateM (Result)

namespace LocalMemMeta
variable {m m' : LocalMemMeta} {a p d : Addr} {nodes : List FTreeNode}

/-! ### What a sweep meets -/

theorem visited_iff : m.Visited p d ↔
    d = p ∨ ∃ n ch, m.KeptChild p n ch ∧ (m.heap ch).isDir = true ∧ m.Visited ch d := by
  constructor
  · intro h
    induction h with
    | start => exact .inl rfl
    | @down b c n _ hc hd ih =>
      rcases ih with rfl | ⟨k, ch, hch, hdir, hv⟩
      · exact .inr ⟨n, c, hc, hd, .start⟩
      · exact .inr ⟨k, ch, hch, hdir, hv.down hc hd⟩
  · rintro (rfl | ⟨n, ch, hch, hdir, hv⟩)
    · exact .start
    · induction hv with
      | start => exact .down .start hch hdir
      | down _ hc hd ih => exact ih.down hc hd

/-- A sweep finds nothing to remove among the children and from each directory among them on. -/
theorem nothingToSweep_iff : m.NothingToSweep p ↔
    (∀ n ch, (m.heap p).getChild n = some ch → (m.heap ch).synced = true) ∧
      ∀ n ch, (m.heap p).getChild n = some ch → (m.heap ch).isDir = true → m.NothingToSweep ch := by
  constructor
  · intro h
    refine ⟨fun n ch => h p n ch .start, fun n ch hch hdir d k x hv => h d k x ?_⟩
    exact visited_iff.mpr (.inr ⟨n, ch, ⟨hch, h p n ch .start hch⟩, hdir, hv⟩)
  · rintro ⟨hmarked, hbelow⟩ d n ch hv hch
    rcases visited_iff.mp hv with rfl | ⟨k, x, hx, hdir, hv⟩
    · exact hmarked n ch hch
    · exact hbelow k x hx.1 hdir d n ch hv hch

/-- Both heaps have the same children, marks and kinds wherever the sweep comes. -/
theorem nothingToSweep_congr (h : ∀ d, m.Visited p d → (m'.heap d).children = (m.heap d).children ∧
    ∀ n ch, (m.heap d).getChild n = some ch → (m'.heap ch).synced = (m.heap ch).synced ∧ (m'.heap ch).isDir = (m.heap ch).isDir) :
    m'.NothingToSweep p ↔ m.NothingToSweep p := by
  have hchild : ∀ d, m.Visited p d → ∀ n, (m'.heap d).getChild n = (m.heap d).getChild n := fun d hd n => by
    rw [Dentry.getChild, (h d hd).1, ← Dentry.getChild]
  have hkept : ∀ d, m.Visited p d → ∀ n ch, m'.KeptChild d n ch ↔ m.KeptChild d n ch := fun d hd n ch => by
    unfold KeptChild
    rw [hchild d hd n]
    exact and_congr_right fun hch => by rw [((h d hd).2 n ch hch).1]
  have hvisited : ∀ d, m'.Visited p d ↔ m.Visited p d := by
    refine fun d => ⟨fun hd => ?_, fun hd => ?_⟩
    · induction hd with
      | start => exact .start
      | @down b c n _ hc hdir ih =>
        have hc' := (hkept b ih n c).mp hc
        exact ih.down hc' (((h b ih).2 n c hc'.1).2 ▸ hdir)
    · induction hd with
      | start => exact .start
      | @down b c n hb hc hdir ih => exact ih.down ((hkept b hb n c).mpr hc) (((h b hb).2 n c hc.1).2.symm ▸ hdir)
  constructor
  · intro hn d n ch hd hch
    rw [← ((h d hd).2 n ch hch).1]
    exact hn d n ch ((hvisited d).mpr hd) ((hchild d hd n).trans hch)
  · intro hn d n ch hd hch
    have hd' := (hvisited d).mp hd
    rw [hchild d hd' n] at hch
    rw [((h d hd').2 n ch hch).1]
    exact hn d n ch hd' hch

/-- The sweep that follows a merge of the names `named` into `a` will remove nothing. -/
structure SweepsNothing (m : LocalMemMeta) (a : Addr) (named : Str → Prop) : Prop where
  children : ∀ n ch, (m.heap a).getChild n = some ch → (m.heap ch).synced = true ∨ named n
  below : ∀ n ch, (m.heap a).getChild n = some ch → (m.heap ch).isDir = true → m.NothingToSweep ch

theorem SweepsNothing.congr {named named' : Str → Prop} (h : ∀ n, named n ↔ named' n) :
    m.SweepsNothing a named ↔ m.SweepsNothing a named' :=
  ⟨fun hs => ⟨fun n ch hch => (hs.children n ch hch).imp id (h n).mp, hs.below⟩,
    fun hs => ⟨fun n ch hch => (hs.children n ch hch).imp id (h n).mpr, hs.below⟩⟩

/-- A merge leaves what lies below the children as it was. -/
theorem Built.below (hm : Inv m) (hb : Built a nodes m m') {n : Str} {ch : Addr} (hch : (m.heap a).getChild n = some ch) :
    m'.NothingToSweep ch ↔ m.NothingToSweep ch := by
  obtain ⟨hlt, halloc, -, -⟩ := hm.child a n ch hb.alloc hch
  refine nothingToSweep_congr fun d hd => ?_
  obtain ⟨hle, hd'⟩ := hd.allocated hm halloc
  have hne : d ≠ a := Nat.ne_of_gt (Nat.lt_of_lt_of_le hlt hle)
  refine ⟨hb.others d hd' hne, fun k x hx => ?_⟩
  obtain ⟨hdx, hx', -, hparent⟩ := hm.child d k x hd' hx
  refine ⟨?_, by rw [Dentry.isDir, (hb.same x hx').1, Dentry.isDir]⟩
  cases hsync : (m.heap x).synced with
  | true => exact hb.mark x hx' hsync
  | false =>
    refine Bool.eq_false_iff.mpr fun hnew => ?_
    rcases hb.marked x hx' (Nat.ne_of_gt (Nat.lt_trans (Nat.lt_of_lt_of_le hlt hle) hdx)) hnew with hold | ⟨node, -, hxa⟩
    · rw [hsync] at hold
      cases hold
    · obtain ⟨-, -, -, hparent'⟩ := hm.child a node.name x hb.alloc hxa
      exact hne (Option.some.inj (hparent.symm.trans hparent'))

/-- After a merge the sweep removes nothing exactly when the state before it says so. -/
theorem Built.nothingToSweep_iff (hm : Inv m) (hb : Built a nodes m m') :
    m'.NothingToSweep a ↔ m.SweepsNothing a fun n => ∃ node ∈ nodes, node.name = n := by
  rw [LocalMemMeta.nothingToSweep_iff]
  constructor
  · rintro ⟨hmarked, hbelow⟩
    refine ⟨fun n ch hch => ?_, fun n ch hch hdir => ?_⟩
    · obtain ⟨hlt, halloc, hname, -⟩ := hm.child a n ch hb.alloc hch
      rcases hb.marked ch halloc (Nat.ne_of_gt hlt) (hmarked n ch (hb.child n ch hch)) with hold | ⟨node, hnode, hch'⟩
      · exact .inl hold
      · exact .inr ⟨node, hnode, (hm.child a node.name ch hb.alloc hch').2.2.1.symm.trans hname⟩
    · have halloc := (hm.child a n ch hb.alloc hch).2.1
      refine (hb.below hm hch).mp (hbelow n ch (hb.child n ch hch) ?_)
      rw [Dentry.isDir, (hb.same ch halloc).1]
      exact hdir
  · intro h
    have hcases : ∀ n ch, (m'.heap a).getChild n = some ch → (m'.heap ch).synced = true ∧
        ((m'.heap ch).isDir = true → m'.NothingToSweep ch) := by
      intro n ch hch
      obtain ⟨-, halloc, -, -⟩ := hb.inv.child a n ch (Nat.lt_of_lt_of_le hb.alloc hb.grow.next) hch
      rcases hb.origin n ch hch with hold | ⟨hnew, -⟩
      · have hold' := (hm.child a n ch hb.alloc hold).2.1
        refine ⟨?_, fun hdir => (hb.below hm hold).mpr (h.below n ch hold ?_)⟩
        · rcases h.children n ch hold with hsync | ⟨node, hnode, rfl⟩
          · exact hb.mark ch hold' hsync
          · obtain ⟨c, hc, hsync⟩ := hb.listed node hnode
            obtain rfl := Option.some.inj (hch.symm.trans hc)
            exact hsync
        · rw [Dentry.isDir, (hb.same ch hold').1] at hdir
          exact hdir
      · -- A new child has no children of its own.
        obtain ⟨hnone, -, hsync, -⟩ := hb.fresh ch hnew halloc
        have hno : ∀ k x, (m'.heap ch).getChild k ≠ some x := fun k x hx => by
          rw [Dentry.getChild, hnone, AList.lookup_empty] at hx
          cases hx
        exact ⟨hsync, fun _ => LocalMemMeta.nothingToSweep_iff.mpr
          ⟨fun k x hx => absurd hx (hno k x), fun k x hx => absurd hx (hno k x)⟩⟩
    exact ⟨fun n ch hch => (hcases n ch hch).1, fun n ch hch => (hcases n ch hch).2⟩

end LocalMemMeta

/-! ### Requests -/

/-- The step is no sweep, or one that removes nothing. -/
def MetaAct.Spares (l : MetaAct) (m : LocalMemMeta) : Prop := ∀ a, l = .sweep a → m.NothingToSweep a

namespace MetaImpl
variable {σ α : Type} {st : Stor σ} {p : MetaM σ α} {s : World σ} {a : Addr}

open MetaM

/-- No sweep of the run removes a child, so the process survives them. -/
abbrev Survives (p : MetaM σ α) (s : World σ) : Prop := p.Along (fun l s _ => l.Spares s.cache) s

/-- None of the steps is a sweep. -/
abbrev Sweepless (p : MetaM σ α) : Prop := p.Does fun l _ _ => ∀ a, l ≠ .sweep a

theorem Sweepless.survives (h : Sweepless p) : Survives p s := by
  have hdoes : p.Does fun l s _ => l.Spares s.cache := by
    induction p with
    | ret a => trivial
    | fail e => trivial
    | act l f k ih => exact ⟨fun s a hl => absurd hl (h.1 s a), fun b => ih b (h.2 b)⟩
  exact hdoes.along

theorem sweepless_lift {l : MetaAct} {f : EStateM Err (World σ) α} (h : ∀ a, l ≠ .sweep a) : Sweepless (Prog.lift l f) :=
  Prog.does_lift fun _ => h

theorem sweepless_refreshLoop {ino : InodeID} {pre : Str} (fuel : Nat) (marker : Str) :
    Sweepless (refreshLoop st ino pre fuel marker) := by
  induction fuel generalizing marker with
  | zero => trivial
  | succ fuel ih =>
    refine (sweepless_lift (by simp)).bind fun resp => ?_
    cases buildFtree pre resp with
    | none => trivial
    | some children =>
      refine Prog.Does.bind (sweepless_lift (by simp)) fun _ => Prog.Does.ite (ih _) trivial

/-- A refresh whose pages come survives exactly when the sweep after them removes nothing. -/
theorem survives_refresh {fuel : Nat} {pre : Str} {s₁ : World σ}
    (hpre : (pathWithSlash a : MetaM σ Str).run s = .ok pre s)
    (hloop : (refreshLoop st (s.cache.heap a).inode.ino pre fuel []).run s = .ok () s₁) :
    Survives (refreshSubDentries st fuel a) s ↔ s₁.cache.NothingToSweep a := by
  have hpath : Survives (pathWithSlash a : MetaM σ Str) s := (sweepless_lift (by simp)).survives
  have hread : Survives (readDentry a : MetaM σ Dentry) s := (sweepless_lift (by simp)).survives
  rw [refreshSubDentries, Survives, Prog.along_bind_ok hpre, Prog.along_bind_ok run_readDentry, Prog.along_bind_ok hloop,
    and_iff_right hpath, and_iff_right hread, and_iff_right (sweepless_refreshLoop fuel []).survives, cache, Prog.along_lift]
  refine ⟨fun h => h a rfl, fun h b hb => ?_⟩
  obtain rfl := MetaAct.sweep.inj hb
  exact h

/-- A refresh whose pages do not all come makes no sweep. -/
theorem survives_refresh_error {fuel : Nat} {pre : Str} {s₁ : World σ} {e : Err}
    (hpre : (pathWithSlash a : MetaM σ Str).run s = .ok pre s)
    (hloop : (refreshLoop st (s.cache.heap a).inode.ino pre fuel []).run s = .error e s₁) :
    Survives (refreshSubDentries st fuel a) s := by
  have hpath : Survives (pathWithSlash a : MetaM σ Str) s := (sweepless_lift (by simp)).survives
  have hread : Survives (readDentry a : MetaM σ Dentry) s := (sweepless_lift (by simp)).survives
  rw [refreshSubDentries, Survives, Prog.along_bind_ok hpre, Prog.along_bind_ok run_readDentry, Prog.along_bind_error hloop]
  exact ⟨hpath, hread, (sweepless_refreshLoop fuel []).survives⟩

/-! ### Checking a run -/

/-- All children carry the mark, and so on downwards, to a depth of `k` at most. -/
def allMarked (m : LocalMemMeta) : Nat → Addr → Bool
  | 0, a => (m.heap a).children.entries.isEmpty
  | k + 1, a => (m.heap a).children.entries.all fun e => (m.heap e.2).synced && allMarked m k e.2

theorem nothingToSweep_of_allMarked {m : LocalMemMeta} {k : Nat} {a : Addr} (h : allMarked m k a = true) : m.NothingToSweep a := by
  induction k generalizing a with
  | zero =>
    have hnone : ∀ n ch, (m.heap a).getChild n ≠ some ch := fun n ch hch => by
      have hmem := AList.mem_lookup_iff.mp hch
      rw [List.isEmpty_iff.mp h] at hmem
      cases hmem
    exact LocalMemMeta.nothingToSweep_iff.mpr ⟨fun n ch hch => absurd hch (hnone n ch), fun n ch hch => absurd hch (hnone n ch)⟩
  | succ k ih =>
    have hchild : ∀ n ch, (m.heap a).getChild n = some ch → (m.heap ch).synced = true ∧ allMarked m k ch = true := fun n ch hch =>
      (Bool.and_eq_true _ _).mp (List.all_eq_true.mp h ⟨n, ch⟩ (AList.mem_lookup_iff.mp hch))
    exact LocalMemMeta.nothingToSweep_iff.mpr ⟨fun n ch hch => (hchild n ch hch).1, fun n ch hch _ => ih (hchild n ch hch).2⟩

/-- The step is no sweep, or one that finds every child marked. -/
def sparesWithin (k : Nat) (l : MetaAct) (m : LocalMemMeta) : Bool :=
  match l with
  | .sweep a => allMarked m k a
  | _ => true

theorem spares_of_within {k : Nat} {l : MetaAct} {m : LocalMemMeta} (h : sparesWithin k l m = true) : l.Spares m := by
  rintro a rfl
  exact nothingToSweep_of_allMarked h

theorem survives_of_within (k : Nat) (h : ((p.transitions s).all fun e => sparesWithin k e.1 e.2.1.cache) = true) : Survives p s :=
  fun e he => spares_of_within (List.all_eq_true.mp h e he)

end MetaImpl

end Catfs
