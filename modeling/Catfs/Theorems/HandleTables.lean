import Catfs.Theorems.HandleKeys

/-! # The tables of handles

A number is in use from the call that returned it until the release call for it. The tables follow the numbers in use
in the runs that give every call a number in use and release no file, and in no others: a lookup of any other number
leaves a null entry, `release_dir` of one does not throw, and `release_file` erases nothing. -/

namespace Catfs

open Lib
open EStateM (Result)

variable {σ : Type} {st : Stor σ} {hno : HandleID}

/-! ### Runs -/

/-- A call that was made, the state it found, and how it ended. -/
structure HandleEvent (σ : Type) where
  call : HandleCall
  before : HandleTables σ
  result : Result Err (HandleTables σ) (Option HandleID)

namespace HandleEvent

def after (e : HandleEvent σ) : HandleTables σ := endState e.result

/-- The numbers of files in use after the call. -/
def useFiles (inUse : Set HandleID) (e : HandleEvent σ) : Set HandleID :=
  match e.call with
  | .openfile _ _ => inUse ∪ {h | issued e.result = some h}
  | .releaseFile hno => inUse \ {hno}
  | .opendir _ | .readfile _ _ _ | .writefile _ _ _ | .readDir _ _ _ | .releaseDir _ => inUse

/-- The numbers of directories in use after the call. -/
def useDirs (inUse : Set HandleID) (e : HandleEvent σ) : Set HandleID :=
  match e.call with
  | .opendir _ => inUse ∪ {h | issued e.result = some h}
  | .releaseDir hno => inUse \ {hno}
  | .openfile _ _ | .readfile _ _ _ | .writefile _ _ _ | .readDir _ _ _ | .releaseFile _ => inUse

/-- The call sent the upload of the file open under `hno`: it released it and returned, after a `put_file` or a
    `mfinish`. -/
def SendsUpload (st : Stor σ) (hno : HandleID) (e : HandleEvent σ) : Prop :=
  e.call = .releaseFile hno ∧ returned e.result = true ∧ ∃ file, e.before.openFiles hno = some file ∧
    ∃ l ∈ (SequenceWriter.release st.toUploadStor).trace (file.writer, e.before.fuse.catfs.world.stor),
      l = .putFile ∨ l = .mfinish

end HandleEvent

/-- The numbers that `openfile` returned and `release_file` was not called with since. -/
def filesInUse (evs : List (HandleEvent σ)) : Set HandleID := evs.foldl HandleEvent.useFiles ∅

/-- The numbers that `opendir` returned and `release_dir` was not called with since. -/
def dirsInUse (evs : List (HandleEvent σ)) : Set HandleID := evs.foldl HandleEvent.useDirs ∅

/-- After the calls `evs`, the call gives a number that is not in use in the table it is looked up in. -/
def HandleEvent.Unknown (evs : List (HandleEvent σ)) (e : HandleEvent σ) : Prop :=
  (∃ h, e.call.file = some h ∧ h ∉ filesInUse evs) ∨ ∃ h, e.call.dir = some h ∧ h ∉ dirsInUse evs

/-- The calls, one after the other, over a store that may fail any of them; between two of them the rest of the file
    system may change in any way. -/
inductive HandleRun (st : Stor σ) : List (HandleEvent σ) → HandleTables σ → Prop where
  | start (world : World σ) : HandleRun st [] (.start world)
  | call {evs : List (HandleEvent σ)} {s : HandleTables σ} (h : HandleRun st evs s) (c : HandleCall) (fuel : Nat) :
      HandleRun st (evs ++ [⟨c, s, c.exec st fuel s⟩]) (endState (c.exec st fuel s))
  | other {evs : List (HandleEvent σ)} {s : HandleTables σ} (h : HandleRun st evs s) (world : World σ) :
      HandleRun st evs (s.setWorld world)

/-- The tables are right after the calls `evs`: no number was issued twice, and the entries are those of the numbers in
    use; a call with another number threw and changed no entry; the upload of a handle was sent at most once. -/
structure HandlesRight (st : Stor σ) (evs : List (HandleEvent σ)) (s : HandleTables σ) : Prop where
  distinct : (evs.filterMap fun e => issued e.result).Nodup
  apart : ∀ h, ¬ (s.HasFile h ∧ s.HasDir h)
  files : ∀ h, s.HasFile h ↔ h ∈ filesInUse evs
  dirs : ∀ h, s.HasDir h ↔ h ∈ dirsInUse evs
  others : ∀ pre e post, evs = pre ++ e :: post → e.Unknown pre → returned e.result = false ∧ e.before.SameTables e.after
  once : evs.Pairwise fun e e' => ∀ h, ¬ (e.SendsUpload st h ∧ e'.SendsUpload st h)

/-- Every call gives a number in use, and none releases a file. -/
def HandlesKept (evs : List (HandleEvent σ)) : Prop :=
  ∀ pre e post, evs = pre ++ e :: post → ¬ e.Unknown pre ∧ ∀ h, e.call ≠ .releaseFile h

variable {evs : List (HandleEvent σ)} {e : HandleEvent σ} {s : HandleTables σ} {k k' : HandleKeys}

@[simp] theorem filesInUse_nil : filesInUse ([] : List (HandleEvent σ)) = ∅ := rfl
@[simp] theorem dirsInUse_nil : dirsInUse ([] : List (HandleEvent σ)) = ∅ := rfl

@[simp] theorem filesInUse_concat : filesInUse (evs ++ [e]) = e.useFiles (filesInUse evs) := by
  rw [filesInUse, List.foldl_append]
  rfl

@[simp] theorem dirsInUse_concat : dirsInUse (evs ++ [e]) = e.useDirs (dirsInUse evs) := by
  rw [dirsInUse, List.foldl_append]
  rfl

/-- The numbers that were returned. -/
abbrev issuedBy (evs : List (HandleEvent σ)) : List HandleID := evs.filterMap fun e => issued e.result

/-- What every run keeps of the keys. -/
structure KeysKept (evs : List (HandleEvent σ)) (k : HandleKeys) : Prop where
  distinct : (issuedBy evs).Nodup
  below : ∀ h ∈ issuedBy evs, h < k.next
  files : ∀ h, k.files h = true → h < k.next
  opened : ∀ h ∈ filesInUse evs, k.files h = true
  dirs : ∀ h, k.dirs h = true ↔ h ∈ dirsInUse evs
  dirsBelow : ∀ h, k.dirs h = true → h < k.next
  apart : ∀ h, ¬ (k.files h = true ∧ k.dirs h = true)

theorem issuedBy_concat : issuedBy (evs ++ [e]) = issuedBy evs ++ (issued e.result).toList := by
  rw [issuedBy, List.filterMap_append]
  cases hi : issued e.result <;> simp [hi]

theorem KeysKept.start (world : World σ) : KeysKept ([] : List (HandleEvent σ)) (HandleTables.start world).keys where
  distinct := List.nodup_nil
  below := fun _ h => absurd h List.not_mem_nil
  files := fun _ h => by cases h
  opened := fun _ h => by cases h
  dirs := fun _ => ⟨fun h => (by cases h), fun h => (by cases h)⟩
  dirsBelow := fun _ h => by cases h
  apart := fun _ h => by cases h.1

theorem update_true_iff {f : HandleID → Bool} {h h' : HandleID} : Function.update f h true h' = true ↔ h' = h ∨ f h' = true := by
  by_cases hh : h' = h <;> simp [Function.update, hh]

theorem update_false_iff {f : HandleID → Bool} {h h' : HandleID} : Function.update f h false h' = true ↔ f h' = true ∧ h' ≠ h := by
  by_cases hh : h' = h <;> simp [Function.update, hh]

/-- The next number is a new one. -/
theorem KeysKept.issues (hk : KeysKept evs k) (hi : issued e.result = some k.next) :
    (issuedBy (evs ++ [e])).Nodup ∧ ∀ h ∈ issuedBy (evs ++ [e]), h < k.next + 1 := by
  rw [issuedBy_concat, hi, Option.toList_some]
  have hnew : k.next ∉ issuedBy evs := fun hmem => Nat.lt_irrefl _ (hk.below _ hmem)
  refine ⟨List.nodup_append.2 ⟨hk.distinct, List.nodup_singleton _, fun h hmem h' hh' => ?_⟩, fun h hmem => ?_⟩
  · rintro rfl
    rw [List.mem_singleton] at hh'
    exact hnew (hh' ▸ hmem)
  · obtain hmem | hmem := List.mem_append.1 hmem
    · exact Nat.lt_succ_of_lt (hk.below h hmem)
    · rw [List.mem_singleton.1 hmem]
      exact Nat.lt_succ_self _

/-- A call that issues no number takes no file into use. -/
theorem HandleEvent.useFiles_subset (hi : issued e.result = none) (inUse : Set HandleID) : e.useFiles inUse ⊆ inUse := by
  intro h hmem
  unfold useFiles at hmem
  split at hmem
  · obtain hmem | hmem := hmem
    · exact hmem
    · rw [Set.mem_ofPred_eq, hi] at hmem
      cases hmem
  · exact hmem.1
  all_goals exact hmem

/-- A call that issues no number and releases no directory leaves the directories in use. -/
theorem HandleEvent.useDirs_eq (hi : issued e.result = none) (hrel : ∀ h, e.call ≠ .releaseDir h) (inUse : Set HandleID) :
    e.useDirs inUse = inUse := by
  unfold useDirs
  split
  · rw [hi]
    exact Set.ext fun h => ⟨fun hmem => hmem.elim id (fun h => by cases h), .inl⟩
  · next h hc => exact absurd hc (hrel h)
  all_goals rfl

/-- A call that issued no number and leaves the open files. -/
theorem KeysKept.keeps (hk : KeysKept evs k) (hi : issued e.result = none) (hfiles : k'.files = k.files) (hnext : k.next ≤ k'.next)
    (hdirs : ∀ h, k'.dirs h = true ↔ h ∈ dirsInUse (evs ++ [e])) (hsub : ∀ h, k'.dirs h = true → k.dirs h = true) :
    KeysKept (evs ++ [e]) k' := by
  have hissued : issuedBy (evs ++ [e]) = issuedBy evs := by
    rw [issuedBy_concat, hi, Option.toList_none, List.append_nil]
  exact {
    distinct := hissued ▸ hk.distinct
    below := fun h hmem => Nat.lt_of_lt_of_le (hk.below h (hissued ▸ hmem)) hnext
    files := fun h hf => Nat.lt_of_lt_of_le (hk.files h (hfiles ▸ hf)) hnext
    opened := fun h hmem => by
      rw [filesInUse_concat] at hmem
      rw [hfiles]
      exact hk.opened h (HandleEvent.useFiles_subset hi _ hmem)
    dirs := hdirs
    dirsBelow := fun h hd => Nat.lt_of_lt_of_le (hk.dirsBelow h (hsub h hd)) hnext
    apart := fun h hb => hk.apart h ⟨hfiles ▸ hb.1, hsub h hb.2⟩ }

theorem KeysKept.step (hk : KeysKept evs k) (hstep : k.Step e.call (issued e.result) k') : KeysKept (evs ++ [e]) k' := by
  have hstays : issued e.result = none → (∀ h, e.call ≠ .releaseDir h) →
      ∀ h, k.dirs h = true ↔ h ∈ dirsInUse (evs ++ [e]) := by
    intro hi hrel h
    rw [dirsInUse_concat, HandleEvent.useDirs_eq hi hrel]
    exact hk.dirs h
  generalize hi : issued e.result = i at hstep
  generalize hc : e.call = c at hstep
  cases hstep with
  | openfile ino hasWrote =>
    have hdirs : k.dirs k.next ≠ true := fun h => Nat.lt_irrefl _ (hk.dirsBelow _ h)
    refine ⟨(hk.issues hi).1, (hk.issues hi).2, fun h hf => ?_, fun h hmem => ?_, fun h => ?_, fun h hd => ?_, fun h hb => ?_⟩
    · obtain rfl | hf := update_true_iff.1 hf
      · exact Nat.lt_succ_self _
      · exact Nat.lt_succ_of_lt (hk.files h hf)
    · rw [filesInUse_concat] at hmem
      simp only [HandleEvent.useFiles, hc, hi] at hmem
      obtain hmem | hmem := hmem
      · exact update_true_iff.2 (.inr (hk.opened h hmem))
      · exact update_true_iff.2 (.inl (Option.some.inj hmem).symm)
    · simp only [dirsInUse_concat, HandleEvent.useDirs, hc]
      exact hk.dirs h
    · exact Nat.lt_succ_of_lt (hk.dirsBelow h hd)
    · obtain rfl | hf := update_true_iff.1 hb.1
      · exact hdirs hb.2
      · exact hk.apart h ⟨hf, hb.2⟩
  | opendir ino =>
    have hfiles : k.files k.next ≠ true := fun h => Nat.lt_irrefl _ (hk.files _ h)
    refine ⟨(hk.issues hi).1, (hk.issues hi).2, fun h hf => ?_, fun h hmem => ?_, fun h => ?_, fun h hd => ?_, fun h hb => ?_⟩
    · exact Nat.lt_succ_of_lt (hk.files h hf)
    · rw [filesInUse_concat] at hmem
      simp only [HandleEvent.useFiles, hc] at hmem
      exact hk.opened h hmem
    · simp only [dirsInUse_concat, HandleEvent.useDirs, hc, hi]
      rw [update_true_iff, hk.dirs h, or_comm, Set.mem_union, Set.mem_ofPred_eq, Option.some_inj, eq_comm]
    · obtain rfl | hd := update_true_iff.1 hd
      · exact Nat.lt_succ_self _
      · exact Nat.lt_succ_of_lt (hk.dirsBelow h hd)
    · obtain rfl | hd := update_true_iff.1 hb.2
      · exact hfiles hb.1
      · exact hk.apart h ⟨hb.1, hd⟩
  | fails hfile hdir hn =>
    have hrel : ∀ h, e.call ≠ .releaseDir h := fun h hh => by
      rw [← hc, hh] at hdir
      cases hdir
    exact hk.keeps hi rfl hn (hstays hi hrel) fun _ => id
  | useFile hfile =>
    have hrel : ∀ h, e.call ≠ .releaseDir h := fun h hh => by
      rw [← hc, hh] at hfile
      cases hfile
    exact hk.keeps hi rfl (Nat.le_refl _) (hstays hi hrel) fun _ => id
  | readDir hno off size =>
    have hrel : ∀ h, e.call ≠ .releaseDir h := fun h hh => by
      rw [hh] at hc
      cases hc
    exact hk.keeps hi rfl (Nat.le_refl _) (hstays hi hrel) fun _ => id
  | releaseDir hno =>
    refine hk.keeps hi rfl (Nat.le_refl _) (fun h => ?_) fun h hd => (update_false_iff.1 hd).1
    simp only [dirsInUse_concat, HandleEvent.useDirs, hc]
    rw [update_false_iff, hk.dirs h]
    rfl

theorem HandleRun.kept (h : HandleRun st evs s) : KeysKept evs s.keys := by
  induction h with
  | start world => exact .start world
  | call _ c fuel ih => exact ih.step (HandleTables.exec_step c)
  | other _ world ih => exact ih

/-- The call `e` of a run was made after the calls before it. -/
theorem HandleRun.at {pre post : List (HandleEvent σ)} (h : HandleRun st evs s) (hevs : evs = pre ++ e :: post) :
    HandleRun st pre e.before ∧ ∃ fuel, e.result = e.call.exec st fuel e.before := by
  induction h generalizing post with
  | start world => cases pre <;> cases hevs
  | @call evs s h c fuel ih =>
    obtain rfl | ⟨post, last, rfl⟩ := post.eq_nil_or_concat
    · obtain ⟨rfl, he⟩ := List.append_inj' hevs rfl
      cases he
      exact ⟨h, fuel, rfl⟩
    · rw [List.concat_eq_append, ← List.cons_append, ← List.append_assoc] at hevs
      exact ih (List.append_inj' hevs rfl).1
  | other _ world ih => exact ih hevs

theorem HandlesKept.init (h : HandlesKept (evs ++ [e])) : HandlesKept evs := by
  intro pre e' post hevs
  refine h pre e' (post ++ [e]) ?_
  rw [hevs, List.append_assoc, List.cons_append]

/-- What the runs with the condition keep of the keys. -/
structure KeysRight (evs : List (HandleEvent σ)) (k : HandleKeys) : Prop where
  files : ∀ h, k.files h = true → h ∈ filesInUse evs
  nullFiles : ∀ h, k.nullFiles h = false
  nullDirs : ∀ h, k.nullDirs h = false

theorem update_false {f : HandleID → Bool} {b : Bool} (hf : ∀ h, f h = false) (hb : b = false) (h : HandleID) :
    Function.update f hno b h = false := by
  by_cases hh : h = hno
  · rw [hh, Function.update_self, hb]
  · rw [Function.update_of_ne hh, hf]

/-- A number is in use after a call that releases no file when it was in use before. -/
theorem HandleEvent.subset_useFiles (hrel : ∀ h, e.call ≠ .releaseFile h) (inUse : Set HandleID) : inUse ⊆ e.useFiles inUse := by
  intro h hmem
  unfold useFiles
  split
  · exact .inl hmem
  · next hno hc => exact absurd hc (hrel hno)
  all_goals exact hmem

theorem KeysRight.step (hr : KeysRight evs k) (hk : KeysKept evs k) (hknown : ¬ e.Unknown evs)
    (hrel : ∀ h, e.call ≠ .releaseFile h) (hstep : k.Step e.call (issued e.result) k') : KeysRight (evs ++ [e]) k' := by
  have hfiles : ∀ h, k.files h = true → h ∈ filesInUse (evs ++ [e]) := fun h hf => by
    rw [filesInUse_concat]
    exact HandleEvent.subset_useFiles hrel _ (hr.files h hf)
  generalize hi : issued e.result = i at hstep
  generalize hc : e.call = c at hstep
  cases hstep with
  | openfile ino hasWrote =>
    refine ⟨fun h hf => ?_, update_false hr.nullFiles rfl, hr.nullDirs⟩
    by_cases hh : h = k.next
    · rw [filesInUse_concat]
      simp only [HandleEvent.useFiles, hc, hi]
      exact .inr (congrArg some hh.symm)
    · exact hfiles h ((Function.update_of_ne hh _ _).symm.trans hf)
  | opendir ino => exact ⟨hfiles, hr.nullFiles, update_false hr.nullDirs rfl⟩
  | fails hfile hdir hn => exact ⟨hfiles, hr.nullFiles, hr.nullDirs⟩
  | @useFile _ hno hfile =>
    have hinUse : hno ∈ filesInUse evs := by
      by_contra hnot
      exact hknown (.inl ⟨hno, hc ▸ hfile, hnot⟩)
    exact ⟨hfiles, update_false hr.nullFiles (by rw [hk.opened hno hinUse]; rfl), hr.nullDirs⟩
  | readDir hno off size =>
    have hinUse : hno ∈ dirsInUse evs := by
      by_contra hnot
      exact hknown (.inr ⟨hno, by rw [hc]; rfl, hnot⟩)
    exact ⟨hfiles, hr.nullFiles, update_false hr.nullDirs (by rw [(hk.dirs hno).2 hinUse]; rfl)⟩
  | releaseDir hno => exact ⟨hfiles, hr.nullFiles, update_false hr.nullDirs rfl⟩

theorem HandleRun.keysRight (h : HandleRun st evs s) (hkept : HandlesKept evs) : KeysRight evs s.keys := by
  induction h with
  | start world => exact ⟨(fun _ h => by cases h), fun _ => rfl, fun _ => rfl⟩
  | @call evs s h c fuel ih =>
    obtain ⟨hknown, hrel⟩ := hkept evs _ [] rfl
    exact (ih hkept.init).step h.kept hknown hrel (HandleTables.exec_step c)
  | other _ world ih => exact ih hkept

/-- The tables are right after a run with the condition. -/
theorem HandleRun.right (h : HandleRun st evs s) (hkept : HandlesKept evs) : HandlesRight st evs s := by
  have hk := h.kept
  have hr := h.keysRight hkept
  have hfiles : ∀ hno, s.HasFile hno ↔ s.keys.files hno = true := fun hno =>
    or_iff_left_of_imp fun hnull => absurd hnull (by rw [show s.nullFiles hno = false from hr.nullFiles hno]; exact Bool.false_ne_true)
  have hdirs : ∀ hno, s.HasDir hno ↔ s.keys.dirs hno = true := fun hno =>
    or_iff_left_of_imp fun hnull => absurd hnull (by rw [show s.nullDirs hno = false from hr.nullDirs hno]; exact Bool.false_ne_true)
  have hsends : ∀ e ∈ evs, ∀ hno, ¬ e.SendsUpload st hno := fun e he hno hs => by
    obtain ⟨pre, post, hevs⟩ := List.append_of_mem he
    exact (hkept pre e post hevs).2 hno hs.1
  exact {
    distinct := hk.distinct
    apart := fun hno hb => hk.apart hno ⟨(hfiles hno).1 hb.1, (hdirs hno).1 hb.2⟩
    files := fun hno => (hfiles hno).trans ⟨hr.files hno, hk.opened hno⟩
    dirs := fun hno => (hdirs hno).trans (hk.dirs hno)
    others := fun pre e post hevs hunknown => absurd hunknown (hkept pre e post hevs).1
    once := List.pairwise_of_forall_mem_list fun e he _ _ hno hb => hsends e he hno hb.1 }

/-! ### The calls that break the tables -/

theorem HandleKeys.Step.file {c : HandleCall} {i : Option HandleID} (hstep : k.Step c i k') (hc : c.file = some hno) :
    k' = { k with nullFiles := Function.update k.nullFiles hno (!k.files hno) } := by
  cases hstep with
  | useFile hfile =>
    rw [hc] at hfile
    cases hfile
    rfl
  | fails hfile _ _ =>
    rw [hc] at hfile
    cases hfile
  | _ => cases hc

theorem HandleKeys.Step.readDir_eq {off size : Nat} {i : Option HandleID} (hstep : k.Step (.readDir hno off size) i k') :
    k' = { k with nullDirs := Function.update k.nullDirs hno (!k.dirs hno) } := by
  cases hstep with
  | readDir => rfl
  | fails _ hdir _ => cases hdir
  | useFile hfile => cases hfile

theorem HandleCall.dir_cases {c : HandleCall} (hc : c.dir = some hno) :
    (∃ off size, c = .readDir hno off size) ∨ c = .releaseDir hno := by
  cases c with
  | readDir _ off size =>
    cases hc
    exact .inl ⟨off, size, rfl⟩
  | releaseDir _ =>
    cases hc
    exact .inr rfl
  | _ => cases hc

section
variable {pre : List (HandleEvent σ)} (hbefore : HandlesRight st pre e.before)
  (hafter : HandlesRight st (pre ++ [e]) e.after) (hstep : e.before.keys.Step e.call (issued e.result) e.after.keys)
include hbefore hafter hstep

/-- A call on a file gives a number in use: its lookup of any other leaves an entry. -/
theorem HandlesRight.file (hc : e.call.file = some hno) : hno ∈ filesInUse pre := by
  by_contra hnot
  have hnone : e.before.keys.files hno = false := by
    cases hf : e.before.keys.files hno with
    | false => rfl
    | true => exact absurd ((hbefore.files hno).1 (.inl hf)) hnot
  have hentry : e.after.keys.nullFiles hno = true := by
    rw [hstep.file hc]
    exact (Function.update_self ..).trans (by rw [hnone]; rfl)
  have hsame := (hafter.others pre e [] rfl (.inl ⟨hno, hc, hnot⟩)).2
  have hold : e.before.nullFiles hno = true := (congrFun hsame.nullFiles hno).symm.trans hentry
  exact hnot ((hbefore.files hno).1 (.inr hold))

/-- A call on a directory gives a number in use: the lookup of any other leaves an entry, and `release_dir` does not
    throw. -/
theorem HandlesRight.dir (hc : e.call.dir = some hno)
    (hreturns : e.call = .releaseDir hno → returned e.result = true) : hno ∈ dirsInUse pre := by
  by_contra hnot
  have hunknown := hafter.others pre e [] rfl (.inr ⟨hno, hc, hnot⟩)
  obtain ⟨off, size, hread⟩ | hrel := HandleCall.dir_cases hc
  · have hnone : e.before.keys.dirs hno = false := by
      cases hd : e.before.keys.dirs hno with
      | false => rfl
      | true => exact absurd ((hbefore.dirs hno).1 (.inl hd)) hnot
    have hentry : e.after.keys.nullDirs hno = true := by
      rw [hread] at hstep
      rw [hstep.readDir_eq]
      exact (Function.update_self ..).trans (by rw [hnone]; rfl)
    have hold : e.before.nullDirs hno = true := (congrFun hunknown.2.nullDirs hno).symm.trans hentry
    exact hnot ((hbefore.dirs hno).1 (.inr hold))
  · rw [hreturns hrel] at hunknown
    cases hunknown.1

/-- No file is released: the entry stays. -/
theorem HandlesRight.not_release (hk : KeysKept pre e.before.keys) : e.call ≠ .releaseFile hno := by
  intro hrel
  have hc : e.call.file = some hno := by rw [hrel]; rfl
  have hopen : e.before.keys.files hno = true := hk.opened hno (hbefore.file hafter hstep hc)
  have hentry : e.after.keys.files hno = true := by
    rw [hstep.file hc]
    exact hopen
  have hmem := (hafter.files hno).1 (.inl hentry)
  rw [filesInUse_concat] at hmem
  simp only [HandleEvent.useFiles, hrel] at hmem
  exact hmem.2 rfl

end

/-- The tables are right in every state of a run if and only if its calls give numbers in use and release no file. -/
theorem HandleRun.right_iff (h : HandleRun st evs s) :
    (∀ pre s', pre <+: evs → HandleRun st pre s' → HandlesRight st pre s') ↔ HandlesKept evs := by
  refine ⟨fun hright pre e post hevs => ?_, fun hkept pre s' hpre hrun => hrun.right ?_⟩
  · obtain ⟨hrun, fuel, hresult⟩ := h.at hevs
    have hrun' : HandleRun st (pre ++ [e]) e.after := by
      have hcall := hrun.call e.call fuel
      rw [← hresult] at hcall
      exact hcall
    have hbefore := hright pre e.before ⟨e :: post, hevs.symm⟩ hrun
    have hafter := hright (pre ++ [e]) e.after ⟨post, by rw [hevs, List.append_assoc]; rfl⟩ hrun'
    have hstep : e.before.keys.Step e.call (issued e.result) e.after.keys := by
      rw [HandleEvent.after, hresult]
      exact HandleTables.exec_step e.call
    have hreturns : ∀ hno, e.call = .releaseDir hno → returned e.result = true := fun hno hrel => by
      rw [hresult, hrel]
      rfl
    refine ⟨fun hunknown => ?_, fun hno => hbefore.not_release hafter hstep hrun.kept⟩
    obtain ⟨hno, hc, hnot⟩ | ⟨hno, hc, hnot⟩ := hunknown
    · exact hnot (hbefore.file hafter hstep hc)
    · exact hnot (hbefore.dir hafter hstep hc (hreturns hno))
  · obtain ⟨post, hpost⟩ := hpre
    intro pre' e post' hevs
    refine hkept pre' e (post' ++ post) ?_
    rw [← hpost, hevs, List.append_assoc, List.cons_append]

/-! ### The calls of a list, one after the other -/

/-- The calls, made one after the other, with at most `fuel` pages for a listing. -/
def handleEvents (st : Stor σ) (fuel : Nat) : HandleTables σ → List HandleCall → List (HandleEvent σ)
  | _, [] => []
  | s, c :: calls => ⟨c, s, c.exec st fuel s⟩ :: handleEvents st fuel (endState (c.exec st fuel s)) calls

def runHandles (st : Stor σ) (fuel : Nat) : HandleTables σ → List HandleCall → HandleTables σ
  | s, [] => s
  | s, c :: calls => runHandles st fuel (endState (c.exec st fuel s)) calls

theorem HandleRun.calls (h : HandleRun st evs s) (fuel : Nat) (calls : List HandleCall) :
    HandleRun st (evs ++ handleEvents st fuel s calls) (runHandles st fuel s calls) := by
  induction calls generalizing evs s with
  | nil => rwa [handleEvents, List.append_nil]
  | cons c calls ih =>
    rw [handleEvents, ← List.singleton_append, ← List.append_assoc]
    exact ih (h.call c fuel)

theorem handleEvents_concat (fuel : Nat) (calls : List HandleCall) (c : HandleCall) :
    handleEvents st fuel s (calls ++ [c]) = handleEvents st fuel s calls ++
      [⟨c, runHandles st fuel s calls, c.exec st fuel (runHandles st fuel s calls)⟩] := by
  induction calls generalizing s with
  | nil => rfl
  | cons c' calls ih => exact congrArg _ ih

/-- One more call that gives a number in use. -/
theorem HandlesKept.call {fuel : Nat} {calls : List HandleCall} (h : HandlesKept (handleEvents st fuel s calls)) (c : HandleCall)
    (hfile : ∀ hno, c.file = some hno → hno ∈ filesInUse (handleEvents st fuel s calls))
    (hdir : ∀ hno, c.dir = some hno → hno ∈ dirsInUse (handleEvents st fuel s calls)) (hrel : ∀ hno, c ≠ .releaseFile hno) :
    HandlesKept (handleEvents st fuel s (calls ++ [c])) := by
  intro pre e post hevs
  rw [handleEvents_concat] at hevs
  obtain rfl | ⟨post, last, rfl⟩ := post.eq_nil_or_concat
  · obtain ⟨rfl, he⟩ := List.append_inj' hevs rfl
    cases he
    refine ⟨fun hunknown => ?_, hrel⟩
    obtain ⟨hno, hc, hnot⟩ | ⟨hno, hc, hnot⟩ := hunknown
    · exact hnot (hfile hno hc)
    · exact hnot (hdir hno hc)
  · rw [List.concat_eq_append, ← List.cons_append, ← List.append_assoc] at hevs
    exact h pre e post (List.append_inj' hevs rfl).1

/-- A mount where a file was created, and its calls over a store that fails none. -/
def oneFileMount : HandleTables Log := .start ⟨oneFile, [], ⟨0, 0⟩, noGarbage⟩

/-- The file is opened and written, and released twice. -/
def releasedTwice : List HandleCall := [.openfile 2 false, .writefile 0 0 [1], .releaseFile 0, .releaseFile 0]

theorem handle_used_after_release :
    let evs := handleEvents (s3Stor Log.client) 1 oneFileMount releasedTwice
    let s := runHandles (s3Stor Log.client) 1 oneFileMount releasedTwice
    HandleRun (s3Stor Log.client) evs s ∧ s.HasFile 0 ∧ 0 ∉ filesInUse evs ∧
      s.fuse.catfs.world.stor = [(.putFile ['a'] [1], true), (.putFile ['a'] [1], true)] ∧
      ¬ HandlesRight (s3Stor Log.client) evs s := by
  intro evs s
  have hfile : s.HasFile 0 := .inl (by decide +kernel)
  have hnot : 0 ∉ filesInUse evs := fun h => h.2 rfl
  refine ⟨HandleRun.calls (.start _) 1 releasedTwice, hfile, hnot, by decide +kernel, fun h => ?_⟩
  exact hnot ((h.files 0).1 hfile)

/-- The directory is opened and listed, and the file is opened and written. -/
def bothOpened : List HandleCall := [.opendir 1, .openfile 2 false, .readDir 0 0 10, .writefile 1 0 [1]]

theorem right_iff_bothOpened :
    let evs := handleEvents (s3Stor Log.client) 1 oneFileMount bothOpened
    let s := runHandles (s3Stor Log.client) 1 oneFileMount bothOpened
    HandleRun (s3Stor Log.client) evs s ∧ HandlesRight (s3Stor Log.client) evs s := by
  intro evs s
  have hrun : HandleRun (s3Stor Log.client) evs s := HandleRun.calls (.start _) 1 bothOpened
  have hnil : HandlesKept (handleEvents (s3Stor Log.client) 1 oneFileMount []) := fun pre e post h => by
    cases pre <;> cases h
  have hdir : issued ((HandleCall.opendir 1).exec (s3Stor Log.client) 1 oneFileMount) = some 0 := by decide +kernel
  have hfile : issued ((HandleCall.openfile 2 false).exec (s3Stor Log.client) 1
      (runHandles (s3Stor Log.client) 1 oneFileMount [.opendir 1])) = some 1 := by decide +kernel
  have hkept₁ := hnil.call (.opendir 1) (fun _ h => by cases h) (fun _ h => by cases h) fun _ h => by cases h
  have hkept₂ := hkept₁.call (.openfile 2 false) (fun _ h => by cases h) (fun _ h => by cases h) fun _ h => by cases h
  have hkept₃ := hkept₂.call (.readDir 0 0 10) (fun _ h => by cases h)
    (fun _ h => by cases h; exact .inr hdir) fun _ h => by cases h
  have hkept : HandlesKept evs := hkept₃.call (.writefile 1 0 [1]) (fun _ h => by cases h; exact .inr hfile)
    (fun _ h => by cases h) fun _ h => by cases h
  exact ⟨hrun, (hrun.right_iff.2 hkept) evs s (List.prefix_refl evs) hrun⟩

end Catfs
