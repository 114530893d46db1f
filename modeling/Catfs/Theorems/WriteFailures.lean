import Catfs.Theorems.ReleaseOutcome

/-! # Writes over a store that may fail

Over every run of writes on one handle: a write that throws keeps the pending content, and what a release
then leaves in the bucket is the data of the accepted writes, exactly when no `mput` of the run failed. -/

namespace Catfs

open Lib SequenceWriter
open EStateM (Result)

/-! ### Runs of writes -/

/-- A call of `write`. Its size is that of the data behind its pointer, and the kernel sends no request of
    2 GiB. -/
structure WriteReq where
  off : Nat
  data : List Byte
  short : data.length < 2 ^ 31

abbrev Handle := SequenceWriter × Log

def WriteReq.exec (P : Policy) (r : WriteReq) (s : Handle) : Result Err Handle Int :=
  (write P.stor r.off r.data.length r.data).run s

/-- The data that a call of `write` accepts. -/
def WriteReq.accepted (P : Policy) (r : WriteReq) (s : Handle) : List Byte :=
  match r.exec P s with
  | .ok _ _ => r.data
  | .error _ _ => []

def runWrites (P : Policy) : Handle → List WriteReq → Handle
  | s, [] => s
  | s, r :: reqs => runWrites P (endState (r.exec P s)) reqs

/-- The data of the writes of a run that succeed, in order. -/
def acceptedData (P : Policy) : Handle → List WriteReq → List Byte
  | _, [] => []
  | s, r :: reqs => r.accepted P s ++ acceptedData P (endState (r.exec P s)) reqs

/-- A write of the run that throws leaves the pending content as it was. -/
def KeepsPending (P : Policy) : Handle → List WriteReq → Prop
  | _, [] => True
  | s, r :: reqs => (∀ e s', r.exec P s = .error e s' → pending s'.1 s'.2 = pending s.1 s.2) ∧
    KeepsPending P (endState (r.exec P s)) reqs

/-- No write of the run meets an `mput` that the store refuses. -/
def MputsSucceed (P : Policy) : Handle → List WriteReq → Prop
  | s, [] => ¬ s.2.mputFailed
  | s, r :: reqs => ¬ s.2.mputFailed ∧ MputsSucceed P (endState (r.exec P s)) reqs

/-- What a writer promises a caller that repeats its failed writes: they change nothing, and a release that
    succeeds leaves the data of the successful writes under the file's path. -/
structure Reliable (P : Policy) (path : Str) (reqs : List WriteReq) : Prop where
  keeps : KeepsPending P (.new path, []) reqs
  object : ∀ s', (release P.stor).run (runWrites P (.new path, []) reqs) = .ok () s' →
    (acceptedData P (.new path, []) reqs = [] → s'.2 = (runWrites P (.new path, []) reqs).2) ∧
    (acceptedData P (.new path, []) reqs ≠ [] → s'.2.object path = some (acceptedData P (.new path, []) reqs))

/-! ### One write -/

/-- The handle holds `acc` and the next sequential write follows it. -/
structure HandleHolds (P : Policy) (s : Handle) (acc : List Byte) : Prop where
  staged : Staged P s.1 s.2 acc
  offset : s.1.nextWriteOffset = acc.length
  issued : Issued P s.2

section
variable {P : Policy} {s : Handle} {acc : List Byte}

theorem HandleHolds.new {path : Str} : HandleHolds P (.new path, []) [] :=
  ⟨.new, rfl, fun _ _ _ _ _ h => by cases h⟩

theorem Log.mputFailed_append {log new : Log} (h : Log.mputFailed (log ++ new))
    (hnew : ∀ c ∈ new, ∀ key id n body, c ≠ (StorCall.mput key id n body, false)) : log.mputFailed := by
  obtain ⟨key, id, n, body, hm⟩ := h
  rcases List.mem_append.mp hm with hm | hm
  · exact ⟨key, id, n, body, hm⟩
  · exact absurd rfl (hnew _ hm key id n body)

/-- How a call of `write` ends. -/
inductive Exec (P : Policy) (r : WriteReq) (s : Handle) (acc : List Byte) : Result Err Handle Int → Prop where
  | accepted {n : Int} {s' : Handle} (holds : HandleHolds P s' (acc ++ r.data)) (path : s'.1.filePath = s.1.filePath)
      (fails : s'.2.mputFailed → s.2.mputFailed) : Exec P r s acc (.ok n s')
  | refused {e : Err} {s' : Handle} (holds : HandleHolds P s' acc) (path : s'.1.filePath = s.1.filePath)
      (fails : s'.2.mputFailed → s.2.mputFailed) : Exec P r s acc (.error e s')
  | lost {e : Err} {s' : Handle} (failed : s'.2.mputFailed) (lost : pending s'.1 s'.2 ≠ acc) :
      Exec P r s acc (.error e s')

theorem exec_cases (r : WriteReq) (h : HandleHolds P s acc) : Exec P r s acc (r.exec P s) := by
  obtain ⟨w, log⟩ := s
  by_cases hoff : w.nextWriteOffset = r.off
  · have hacc : r.off = acc.length := hoff.symm.trans h.offset
    have := write_outcome h.staged h.offset h.issued r.short
    rw [WriteReq.exec, hacc]
    generalize (write P.stor acc.length r.data.length r.data).run (w, log) = res at this
    cases this with
    | accepted staged offset sends issued =>
      obtain ⟨new, rfl, hnew, -⟩ := sends.grows
      refine .accepted ⟨staged, offset, issued⟩ sends.path fun hf => Log.mputFailed_append hf ?_
      rintro c hc key id n body rfl
      exact absurd (hnew _ hc).2 (by simp)
    | minitFailed hup =>
      refine .refused ⟨?_, h.offset, h.issued.minit⟩ rfl fun hf => Log.mputFailed_append hf ?_
      · cases h.staged with
        | put hup' hsize hbuf hwoff => exact .put hup' hsize hbuf hwoff
        | mput hup' => exact absurd (hup.symm.trans hup') (by simp)
      · simp
    | mputFailed failed lost => exact .lost failed lost
  · rw [WriteReq.exec, run_write_reject _ hoff]
    exact .refused h rfl id

/-! ### Every run -/

theorem runWrites_holds {reqs : List WriteReq} (h : HandleHolds P s acc) (hm : MputsSucceed P s reqs) :
    KeepsPending P s reqs ∧ HandleHolds P (runWrites P s reqs) (acc ++ acceptedData P s reqs) ∧
      (runWrites P s reqs).1.filePath = s.1.filePath := by
  induction reqs generalizing s acc with
  | nil => exact ⟨trivial, by simpa [acceptedData, runWrites] using h, rfl⟩
  | cons r reqs ih =>
    obtain ⟨-, hm⟩ := hm
    have hexec := exec_cases r h
    simp only [KeepsPending, runWrites, acceptedData, WriteReq.accepted]
    generalize r.exec P s = res at hexec hm
    cases hexec with
    | accepted holds path _ =>
      obtain ⟨hk, hh, hp⟩ := ih holds hm
      refine ⟨⟨nofun, hk⟩, ?_, hp.trans path⟩
      simpa [List.append_assoc] using hh
    | refused holds path _ =>
      obtain ⟨hk, hh, hp⟩ := ih holds hm
      refine ⟨⟨?_, hk⟩, by simpa using hh, hp.trans path⟩
      rintro e s' ⟨⟩
      rw [holds.staged.pending_eq, h.staged.pending_eq]
    | lost failed _ =>
      cases reqs with
      | nil => exact absurd failed hm
      | cons r' reqs => exact absurd failed hm.1

theorem mputsSucceed_of_keepsPending {reqs : List WriteReq} (h : HandleHolds P s acc) (h0 : ¬ s.2.mputFailed)
    (hk : KeepsPending P s reqs) : MputsSucceed P s reqs := by
  induction reqs generalizing s acc with
  | nil => exact h0
  | cons r reqs ih =>
    obtain ⟨hthrow, hk⟩ := hk
    have hexec := exec_cases r h
    refine ⟨h0, ?_⟩
    generalize r.exec P s = res at hexec hk hthrow
    cases hexec with
    | accepted holds _ fails => exact ih holds (fun hf => h0 (fails hf)) hk
    | refused holds _ fails => exact ih holds (fun hf => h0 (fails hf)) hk
    | lost _ lost => exact absurd ((hthrow _ _ rfl).trans h.staged.pending_eq) lost

/-- The writer is reliable over a run exactly when no `mput` of the run fails; a failing `minit` alone does
    no harm. -/
theorem reliable_iff_mputsSucceed (P : Policy) (path : Str) (reqs : List WriteReq) :
    Reliable P path reqs ↔ MputsSucceed P (.new path, []) reqs := by
  constructor
  · intro h
    exact mputsSucceed_of_keepsPending .new (by rintro ⟨_, _, _, _, h⟩; cases h) h.keeps
  · intro h
    obtain ⟨hkeeps, hholds, hpath⟩ := runWrites_holds .new h
    rw [List.nil_append] at hholds
    refine ⟨hkeeps, fun s' hs' => ?_⟩
    rcases release_outcome hholds.staged hholds.offset with ⟨w', log', hrun, hdel, -⟩ | ⟨e, s'', hrun, -⟩
    · cases hrun.symm.trans hs'
      refine ⟨fun hnil => ?_, fun hne => ?_⟩
      · cases hdel with
        | nothing => rfl
        | put _ hne => exact absurd hnil hne
        | upload _ hne => exact absurd hnil hne
      · have := hdel.object hne
        rwa [hpath] at this
    · cases hrun.symm.trans hs'

end

/-- The first part is lost when its upload fails: 8 MiB are written, one more byte starts the upload, and
    the second call of the store, the `mput` of the first part, is refused. -/
theorem first_part_lost : ¬ Reliable (.s3 (· == 1)) ['a']
    [⟨0, List.replicate MB_8 0, by rw [List.length_replicate]; exact MB_8_lt⟩, ⟨MB_8, [1], by decide⟩] := by
  intro h
  let P : Policy := .s3 (· == 1)
  let d : List Byte := List.replicate MB_8 0
  let p : Part := (Part.new MB_8).append d MB_8
  let w₀ : SequenceWriter := .new ['a']
  let w : SequenceWriter := (w₀.setPart .put (some p)).advance MB_8
  let r : MInitResp := { partSize := MB_8, uploadId := [] }
  have hd : d.length = MB_8 := List.length_replicate
  have hfull : p.woff = p.partSize := Nat.zero_add _
  have hcontent : p.content = d := by simp [p, Part.content, Part.append, Part.new, d]
  have hfirst : (write P.stor 0 d.length d).run (w₀, []) = .ok (toInt d.length) (w, []) := by
    rw [run_write (show w₀.nextWriteOffset = 0 from rfl), writeData, hd,
      run_writeLoop_put_room (w := w₀) rfl rfl (Nat.ne_of_lt MB_8_pos) MB_8_pos MB_8_lt]
    rfl
  have hsecond : (write P.stor MB_8 1 [1]).run (w, []) = .error (.serverError [])
      ((w.beginMput r).nextPart, [(.minit ['a'] [], true), ((w.beginMput r).mputCall p, false)]) := by
    have hminit : P.stor.minit { objKey := ['a'] } [] = .ok r [(.minit ['a'] [], true)] := rfl
    rw [run_write (show w.nextWriteOffset = MB_8 from Nat.zero_add _), writeData,
      run_writeLoop_put_full rfl (p := p) rfl hfull (by decide) (by decide),
      run_switchMputMode_upload (p := p) rfl hminit (by decide) hfull.symm, stor_mput_error rfl]
    rfl
  have hkeeps := h.keeps
  simp only [KeepsPending, WriteReq.exec] at hkeeps
  rw [show (List.replicate MB_8 0 : List Byte) = d from rfl, hfirst] at hkeeps
  have hlost := hkeeps.2.1 _ _ hsecond
  have hafter : pending (w.beginMput r).nextPart
      [(.minit ['a'] [], true), ((w.beginMput r).mputCall p, false)] = [] := by
    simp [pending, nextPart, beginMput, Log.joined, Log.parts, mputCall, Part.content, Part.new]
  have hbefore : pending w [] = d := hcontent
  rw [hafter, endState_ok, hbefore] at hlost
  have : (0 : Nat) = MB_8 := by rw [← hd, ← hlost]; rfl
  exact Nat.ne_of_lt MB_8_pos this

end Catfs
