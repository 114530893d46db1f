import Catfs.Theorems.WriteOutcome

/-! # What a release sends

A release sends exactly what the handle holds, as the body of one `put_file` or by finishing the upload
that the handle began, and sends nothing when the handle holds nothing. -/

namespace Catfs

open Lib SequenceWriter
open EStateM (Result)

variable {P : Policy} {w : SequenceWriter} {log log' : Log} {acc : List Byte}

/-! ### The object under a key -/

namespace Log

theorem objectFrom_append {key : Str} {obj : Option (List Byte)} {a b : Log} :
    objectFrom key log obj (a ++ b) = objectFrom key (log ++ a) (objectFrom key log obj a) b := by
  induction a generalizing log obj with
  | nil => simp [objectFrom]
  | cons c a ih =>
    simp only [List.cons_append, objectFrom]
    rw [ih, List.append_assoc]
    rfl

theorem object_append {key : Str} {c : StorCall × Bool} :
    Log.object (log ++ [c]) key = objectFrom key log (log.object key) [c] := objectFrom_append

theorem object_putFile {key : Str} {body : List Byte} :
    Log.object (log ++ [(.putFile key body, true)]) key = some body := by
  rw [object_append]
  simp [objectFrom]

theorem object_mfinish {key id : Str} :
    Log.object (log ++ [(.mfinish key id, true)]) key = some (log.joined id) := by
  rw [object_append]
  simp [objectFrom]

/-- A call that is refused, and one of an upload, leave every object as it was. -/
theorem object_same {c : StorCall × Bool} (h : c.2 = false ∨ ∃ path id, c.1.OfUpload path id) (key : Str) :
    Log.object (log ++ [c]) key = log.object key := by
  obtain ⟨c, b⟩ := c
  rw [object_append]
  rcases h with hb | ⟨path, id, hc⟩
  · obtain rfl : b = false := hb
    cases c <;> rfl
  · cases c with
    | minit k i => cases b <;> rfl
    | mput k i n body => cases b <;> rfl
    | putFile | mfinish | deleteFile => exact hc.elim

theorem object_uploads {new : Log} {path id : Str} (h : ∀ c ∈ new, c.1.OfUpload path id) (key : Str) :
    Log.object (log ++ new) key = log.object key := by
  induction new generalizing log with
  | nil => rw [List.append_nil]
  | cons c new ih =>
    rw [List.append_cons, ih fun c hc => h c (List.mem_cons_of_mem _ hc)]
    exact object_same (.inr ⟨path, id, h c (List.mem_cons_self ..)⟩) key

end Log

/-! ### The three ways to release -/

/-- The calls by which a release hands `acc` to the bucket. -/
inductive Delivered (w : SequenceWriter) (log : Log) (acc : List Byte) : Log → Prop where
  | nothing (hup : w.uptype = .PUT) (h : acc = []) : Delivered w log acc log
  | put (hup : w.uptype = .PUT) (h : acc ≠ []) : Delivered w log acc (log ++ [(.putFile w.filePath acc, true)])
  | upload {last : Log} (hup : w.uptype = .MPUT) (h : acc ≠ [])
      (hlast : ∀ c ∈ last, c.1.OfUpload w.filePath w.mputCtx.uploadId ∧ c.2 = true)
      (hjoined : (log ++ last : Log).joined w.mputCtx.uploadId = acc) :
      Delivered w log acc (log ++ last ++ [(.mfinish w.filePath w.mputCtx.uploadId, true)])

/-- What a release delivers is the object from then on. -/
theorem Delivered.object (h : Delivered w log acc log') (hne : acc ≠ []) : log'.object w.filePath = some acc := by
  cases h with
  | nothing _ he => exact absurd he hne
  | put _ _ => exact Log.object_putFile
  | upload _ _ _ hjoined => rw [Log.object_mfinish, hjoined]

/-- Nothing is sent when there is nothing to deliver. -/
theorem Delivered.same (h : Delivered w log acc log') (hacc : acc = []) : log' = log := by
  cases h with
  | nothing => rfl
  | put _ hne => exact absurd hacc hne
  | upload _ hne => exact absurd hacc hne

/-- It leaves the other objects as they were. -/
theorem Delivered.object_other {key : Str} (h : Delivered w log acc log') (hkey : w.filePath ≠ key) :
    log'.object key = log.object key := by
  cases h with
  | nothing => rfl
  | put =>
    rw [Log.object_append]
    simp [Log.objectFrom, hkey]
  | upload _ _ hlast _ =>
    rw [Log.object_append]
    simp only [Log.objectFrom, hkey, if_false]
    exact Log.object_uploads (fun c hc => (hlast c hc).1) key

theorem stor_putFile_ok {key : Str} {p : Part} (h : P.fails log.length = false) :
    P.stor.putFile { objKey := key, buf := some p.buf, size := p.len, metaData := [] } log =
      .ok () (log ++ [(.putFile key p.content, true)]) := by
  simp [Policy.stor, Policy.answer, h, Part.content, Part.len]

theorem stor_putFile_error {key : Str} {p : Part} (h : P.fails log.length = true) :
    P.stor.putFile { objKey := key, buf := some p.buf, size := p.len, metaData := [] } log =
      .error (.serverError []) (log ++ [(.putFile key p.content, false)]) := by
  simp [Policy.stor, Policy.answer, h, Part.content, Part.len]

theorem stor_mfinish_ok {key id : Str} (h : P.fails log.length = false) :
    P.stor.mfinish { objKey := key, uploadId := id } log = .ok () (log ++ [(.mfinish key id, true)]) := by
  simp [Policy.stor, Policy.answer, h]

theorem stor_mfinish_error {key id : Str} (h : P.fails log.length = true) :
    P.stor.mfinish { objKey := key, uploadId := id } log =
      .error (.serverError []) (log ++ [(.mfinish key id, false)]) := by
  simp [Policy.stor, Policy.answer, h]

/-! ### The calls of a release -/

/-- How many calls the release of a handle with data makes of a store that takes them. -/
def SequenceWriter.releaseCalls (w : SequenceWriter) : Nat :=
  match w.uptype with
  | .PUT => 1
  | .MPUT => if (w.mputPart.map Part.len).getD 0 = 0 then 1 else 2

/-- The store takes the next `n` calls. -/
def Policy.TakesNext (P : Policy) (log : Log) (n : Nat) : Prop := ∀ i < n, P.fails (log.length + i) = false

theorem takesNext_one : P.TakesNext log 1 ↔ P.fails log.length = false := by
  constructor
  · intro h
    exact h 0 Nat.one_pos
  · intro h i hi
    obtain rfl := Nat.lt_one_iff.mp hi
    exact h

theorem takesNext_two : P.TakesNext log 2 ↔ P.fails log.length = false ∧ P.fails (log.length + 1) = false := by
  constructor
  · intro h
    exact ⟨h 0 Nat.two_pos, h 1 Nat.one_lt_two⟩
  · rintro ⟨h₀, h₁⟩ i hi
    cases i with
    | zero => exact h₀
    | succ i =>
      obtain rfl : i = 0 := by omega
      exact h₁

theorem releaseCalls_put (h : w.uptype = .PUT) : w.releaseCalls = 1 := by
  rw [releaseCalls, h]

theorem releaseCalls_mput {p : Part} (h : w.uptype = .MPUT) (hp : w.mputPart = some p) :
    w.releaseCalls = if p.woff = 0 then 1 else 2 := by
  rw [releaseCalls, h, hp]
  rfl

/-- A release delivers what the handle holds when the store takes its calls, and changes no object when it refuses one. -/
theorem release_outcome (hstaged : Staged P w log acc) (hoff : w.nextWriteOffset = acc.length) :
    (∃ w' log', (release P.stor).run (w, log) = .ok () (w', log') ∧ Delivered w log acc log' ∧
      (acc ≠ [] → P.TakesNext log w.releaseCalls)) ∨
    ∃ e s', (release P.stor).run (w, log) = .error e s' ∧ acc ≠ [] ∧ ¬ P.TakesNext log w.releaseCalls ∧
      ∀ key, s'.2.object key = log.object key := by
  by_cases hne : acc = []
  · have h0 : w.nextWriteOffset = 0 := by rw [hoff, hne, List.length_nil]
    cases hstaged with
    | put hup => exact .inl ⟨w, log, run_release_nothing h0, .nothing hup hne, fun h => absurd hne h⟩
    | mput _ hbig =>
      rw [hne, List.length_nil] at hbig
      exact absurd hbig (Nat.not_le.mpr MB_8_pos)
  have h0 : w.nextWriteOffset ≠ 0 := by
    rw [hoff]
    exact fun h => hne (List.length_eq_zero_iff.mp h)
  cases hstaged with
  | put hup hsize hbuf hwoff =>
    obtain ⟨p, hp⟩ : ∃ p, w.putPart = some p := by
      cases hp : w.putPart with
      | some p => exact ⟨p, rfl⟩
      | none =>
        rw [putOrNew, hp] at hbuf
        exact absurd hbuf.symm hne
    have hcontent : p.content = acc := by
      rw [putOrNew, hp] at hbuf hwoff
      rw [Part.content, show p.buf = acc from hbuf, show p.woff = acc.length from hwoff, List.take_length]
    rw [run_release_put h0 hup hp, releaseCalls_put hup, takesNext_one]
    cases hf : P.fails log.length with
    | true =>
      rw [stor_putFile_error hf]
      exact .inr ⟨_, _, rfl, hne, by decide, Log.object_same (.inl rfl)⟩
    | false =>
      rw [stor_putFile_ok hf, hcontent]
      exact .inl ⟨_, _, rfl, .put hup hne, fun _ => rfl⟩
  | mput hup hbig hid hnum hp hwf hroom hpos hacc =>
    rename_i p
    rw [run_release_mput h0 hup, releaseCalls_mput hup hp]
    by_cases hw : p.woff = 0
    · rw [run_uploadLast_empty hp hw, if_pos hw, takesNext_one]
      cases hf : P.fails log.length with
      | true =>
        simp only [stor_mfinish_error hf]
        exact .inr ⟨_, _, rfl, hne, by decide, Log.object_same (.inl rfl)⟩
      | false =>
        simp only [stor_mfinish_ok hf]
        refine .inl ⟨_, _, rfl, ?_, fun _ => trivial⟩
        have hjoined : (log ++ [] : Log).joined w.mputCtx.uploadId = acc := by
          rw [List.append_nil, Log.joined_of_range hnum, ← hacc]
          simp [Part.content, hw]
        simpa using Delivered.upload hup hne (by simp) hjoined
    · rw [run_uploadLast hp (Nat.pos_of_ne_zero hw), if_neg hw, takesNext_two]
      cases hf : P.fails log.length with
      | true =>
        rw [stor_mput_error hf]
        exact .inr ⟨_, _, rfl, hne, fun h => absurd h.1 (by decide), Log.object_same (.inl rfl)⟩
      | false =>
        have hlen : (log ++ [(w.mputCall p, true)]).length = log.length + 1 := by
          rw [List.length_append, List.length_singleton]
        rw [stor_mput_ok hf]
        cases hf' : P.fails (log ++ [(w.mputCall p, true)]).length with
        | true =>
          simp only [stor_mfinish_error hf']
          refine .inr ⟨_, _, rfl, hne, fun h => ?_, fun key => ?_⟩
          · rw [hlen, h.2] at hf'
            cases hf'
          · have hmput : (w.mputCall p).OfUpload w.filePath w.mputCtx.uploadId := ⟨rfl, rfl⟩
            exact (Log.object_same (.inl rfl) key).trans (Log.object_same (.inr ⟨_, _, hmput⟩) key)
        | false =>
          simp only [stor_mfinish_ok hf']
          refine .inl ⟨_, _, rfl, .upload hup hne ?_ ?_, fun _ => ⟨trivial, hlen ▸ hf'⟩⟩
          · intro c hc
            rw [List.mem_singleton] at hc
            subst hc
            exact ⟨⟨rfl, rfl⟩, rfl⟩
          · rw [Log.joined_of_range (n := w.mputCtx.partNum + 1), parts_mputCall, ← hacc]
            · simp
            · rw [parts_mputCall, List.map_append, hnum, List.range_succ]
              rfl

end Catfs
