import Catfs.Theorems.WriterRun
import Catfs.StorLog

/-! # The bounds of the parts

`Part::write` copies all it is given unless the part is already full, so a copy stays inside the buffer
only when the data ends at or before the part boundary. -/

namespace Catfs

open Lib WriterM SequenceWriter

/-- A `memcpy` stays inside its destination and its source. -/
def WriterAct.InBounds : WriterAct → Prop
  | .memcpy cap off size src => off + size ≤ cap ∧ size ≤ src
  | _ => True

/-- The parts of the writer are filled at most to their ends. -/
def SequenceWriter.Fits (w : SequenceWriter) : Prop := ∀ slot p, w.part slot = some p → p.woff ≤ p.partSize

variable {σ α : Type} {S : UploadStor σ} {s : SequenceWriter × σ} {w : SequenceWriter} {t : σ}

/-- Throughout the run every copy stays in bounds and every part is filled at most to its end. -/
abbrev Safe (p : WriterM σ α) (s : SequenceWriter × σ) : Prop := p.Within WriterAct.InBounds (fun s => s.1.Fits) s

/-! ### The steps -/

@[simp] theorem safe_fields : Safe fields s ↔ s.1.Fits := by
  simp only [fields, Prog.within_lift]
  exact ⟨fun h => h.2.1, fun h => ⟨trivial, h, h⟩⟩

@[simp] theorem safe_update {f : SequenceWriter → SequenceWriter} :
    Safe (update f) s ↔ s.1.Fits ∧ (f s.1).Fits := by
  simp only [update, Prog.within_lift]
  exact ⟨fun h => h.2, fun h => ⟨trivial, h⟩⟩

@[simp] theorem safe_call {l : WriterAct} {f : EStateM Err σ α} : Safe (call l f) s ↔ l.InBounds ∧ s.1.Fits := by
  simp only [call, Prog.within_lift]
  refine ⟨fun h => ⟨h.1, h.2.1⟩, fun h => ⟨h.1, h.2, ?_⟩⟩
  simp only [zoom]
  cases f s.2 <;> exact h.2

theorem safe_deref (slot : Slot) {p : Part} (h : s.1.part slot = some p) : Safe (deref slot) s ↔ s.1.Fits := by
  simp [deref, Prog.within_bind, h]

theorem SequenceWriter.Fits.setPart (slot : Slot) {p : Part} (h : w.Fits) (hp : p.woff ≤ p.partSize) :
    (w.setPart slot (some p)).Fits := by
  intro slot' q hq
  cases slot <;> cases slot' <;> simp only [SequenceWriter.setPart, part, Option.some.injEq] at hq
  · exact hq ▸ hp
  · exact h .mput q hq
  · exact h .put q hq
  · exact hq ▸ hp

theorem SequenceWriter.Fits.nextPart (h : w.Fits) : w.nextPart.Fits := fun slot p hp =>
  h slot p ((part_nextPart slot).symm.trans hp)

/-! ### The writer's methods -/

/-- A copy to a part that is not full is in bounds when its data fits. -/
theorem safe_write (slot : Slot) {p : Part} {data : List Byte} (h : w.part slot = some p) (hp : p.woff ≠ p.partSize)
    (hf : w.Fits) : Safe (Part.write slot data data.length) (w, t) ↔ p.woff + data.length ≤ p.partSize := by
  simp only [Part.write, Prog.within_bind, safe_deref (s := (w, t)) slot h, run_deref (s := (w, t)) h, hp, if_false,
    Prog.within_lift, Prog.run_lift, Prog.within_pure]
  constructor
  · rintro ⟨-, ⟨hb, -⟩, -⟩
    exact hb.1
  · intro hb
    have hf' : (w.setPart slot (some (p.append data data.length))).Fits := hf.setPart _ hb
    exact ⟨hf, ⟨⟨hb, Nat.le_refl _⟩, hf, hf'⟩, hf'⟩

theorem safe_write_full (slot : Slot) {p : Part} {data : List Byte} {size : Nat} (h : w.part slot = some p)
    (hp : p.woff = p.partSize) (hf : w.Fits) : Safe (Part.write slot data size) (w, t) := by
  simp only [Part.write, Prog.within_bind, safe_deref (s := (w, t)) slot h, run_deref (s := (w, t)) h, hp, if_true,
    Prog.within_pure]
  exact ⟨hf, hf⟩

theorem safe_uploadPart (slot : Slot) {p : Part} (h : w.part slot = some p) (hf : w.Fits) :
    Safe (uploadPart S slot) (w, t) := by
  have hn : w.nextPart.part slot = some p := (part_nextPart slot).trans h
  have hd := run_deref (s := (w.nextPart, t)) hn
  have hs := (safe_deref (s := (w.nextPart, t)) slot hn).mpr hf.nextPart
  simp only [nextPart] at hd hs
  simp only [uploadPart, Prog.within_bind, safe_fields, run_fields, safe_update, run_update, hd, hs, safe_call]
  exact ⟨hf, ⟨hf, hf.nextPart⟩, trivial, trivial, hf.nextPart⟩

theorem safe_uploadFull {p : Part} (h : w.mputPart = some p) (hf : w.Fits) : Safe (uploadFull S) (w, t) := by
  have hd : (deref .mput : WriterM σ _).run (w, t) = .ok p (w, t) := run_deref h
  have hs : Safe (deref .mput) (w, t) := (safe_deref (s := (w, t)) .mput h).mpr hf
  simp only [uploadFull, Prog.within_bind, hd, hs, true_and]
  split
  · -- The part that is cleared is the one that was uploaded.
    simp only [Prog.within_bind, safe_uploadPart .mput h hf, run_uploadPart .mput h, true_and]
    cases S.mput (w.mputReq p) t with
    | error e t' => trivial
    | ok a t' =>
      have hn : w.nextPart.part .mput = some p := h
      simp only [safe_deref (s := (w.nextPart, t')) .mput hn, run_deref (s := (w.nextPart, t')) hn, safe_update]
      exact ⟨hf.nextPart, hf.nextPart, hf.nextPart.setPart _ (Nat.zero_le _)⟩
  · exact Prog.within_pure () |>.mpr hf

theorem SequenceWriter.Fits.drop {slot : Slot} (h : w.Fits) : (w.setPart slot none).Fits := by
  intro slot' q hq
  cases slot <;> cases slot' <;> simp only [SequenceWriter.setPart, part, reduceCtorEq] at hq
  · exact h .mput q hq
  · exact h .put q hq

/-- A switch that uploads the first part as it is copies nothing. -/
theorem safe_switchMputMode {p : Part} {r : MInitResp} {t' : σ} (hput : w.putPart = some p)
    (h : S.minit { objKey := w.filePath } t = .ok r t') (hlt : r.partSize < 2 ^ 64) (hsize : r.partSize = p.woff)
    (hf : w.Fits) : Safe (switchMputMode S) (w, t) := by
  have h₁ : ({ w with mputPart := some (Part.new r.partSize) } : SequenceWriter).Fits :=
    Fits.setPart .mput hf (Nat.zero_le _)
  have hm : (deref .mput : WriterM σ _).run (w.beginMput r, t') = .ok (Part.new r.partSize) (w.beginMput r, t') :=
    run_deref rfl
  have hp : (deref .put : WriterM σ _).run (w.beginMput r, t') = .ok p (w.beginMput r, t') := run_deref hput
  have hb : (w.beginMput r).Fits := h₁
  have hcap : (Part.new r.partSize).cap = p.len := (Part.cap_new hlt).trans hsize
  have hu := run_uploadPart (S := S) (t := t') (w := w.beginMput r) .put (p := p) hput
  have hsu : Safe (uploadPart S .put) (w.beginMput r, t') := safe_uploadPart .put hput hb
  have hsm : Safe (deref .mput) (w.beginMput r, t') := (safe_deref (s := (w.beginMput r, t')) .mput rfl).mpr hb
  have hsp : Safe (deref .put) (w.beginMput r, t') := (safe_deref (s := (w.beginMput r, t')) .put hput).mpr hb
  simp only [beginMput] at hm hp hu hsu hsm hsp
  simp only [switchMputMode, Prog.within_bind, safe_fields, run_fields, safe_call, run_call, h, safe_update,
    run_update, hm, hp, hsm, hsp, hcap, if_true, hu, hsu, true_and]
  refine ⟨hf, ⟨trivial, hf⟩, ⟨hf, h₁⟩, ⟨h₁, h₁⟩, ⟨h₁, h₁⟩, ⟨h₁, h₁⟩, ?_⟩
  cases S.mput _ t' with
  | error e t'' => trivial
  | ok a t'' => exact ⟨hb.nextPart, hb.nextPart.drop⟩

/-! ### The loop of `write_data` -/

section Loop
variable {fuel : Nat} {data : List Byte} {p : Part}

theorem safe_writeLoop_done {n size : Nat} (hf : w.Fits) : Safe (writeLoop S fuel data size n n) (w, t) := by
  unfold writeLoop
  simpa using hf

theorem safe_writeLoop_put_room (hup : w.uptype = .PUT) (hp : w.putOrNew = p) (hroom : p.woff ≠ p.partSize)
    (hf : w.Fits) (hle : p.woff ≤ p.partSize) (h0 : 0 < data.length) (hlt : data.length < 2 ^ 31) :
    Safe (writeLoop S (fuel + 1) data data.length 0 data.length) (w, t) ↔ p.woff + data.length ≤ p.partSize := by
  have hf₁ : (w.setPart .put (some p)).Fits := hf.setPart _ hle
  have hw := Part.run_write (s := (w.setPart .put (some p), t)) .put data data.length rfl hroom
  have hs : Safe (Part.write .put data data.length) (w.setPart .put (some p), t) ↔ p.woff + data.length ≤ p.partSize :=
    safe_write .put rfl hroom hf₁
  have hd : (deref .put : WriterM σ _).run (w.setPart .put (some (p.append data data.length)), t) =
      .ok (p.append data data.length) _ := run_deref rfl
  rw [putOrNew] at hp
  unfold writeLoop
  simp only [Prog.within_bind, safe_fields, run_fields, hup, Nat.ne_of_lt h0, if_false, openPutPart, safe_update,
    run_update, hp, hs, hw, setPart_setPart, hf, hf₁, u64_wrote hlt, hd, u64_sub_self, Nat.lt_irrefl, if_true, true_and]
  refine ⟨fun h => h.1, fun h => ⟨h, ?_⟩⟩
  have hf₂ : (w.setPart .put (some (p.append data data.length))).Fits := hf.setPart _ h
  refine ⟨(safe_deref (s := (w.setPart .put (some (p.append data data.length)), t)) .put rfl).mpr hf₂, ?_⟩
  split <;> exact (Prog.within_pure ()).mpr hf₂

theorem safe_writeLoop_put_full (hup : w.uptype = .PUT) (hp : w.putPart = some p) (hfull : p.woff = p.partSize)
    (hf : w.Fits) (h0 : 0 < data.length) (hlt : data.length < 2 ^ 31) :
    Safe (writeLoop S (fuel + 1) data data.length 0 data.length) (w, t) ↔
      Safe (switchMputMode S) (w, t) ∧ match (switchMputMode S).run (w, t) with
        | .ok _ s' => Safe (writeLoop S fuel data data.length 0 data.length) s'
        | .error _ _ => True := by
  have hset : w.setPart .put (some p) = w := by rw [← hp]; rfl
  have hw := Part.run_write_full (s := (w, t)) .put data data.length hp hfull
  have hs : Safe (Part.write .put data data.length) (w, t) := safe_write_full .put hp hfull hf
  have hd : (deref .put : WriterM σ _).run (w, t) = .ok p _ := run_deref hp
  have hsd : Safe (deref .put) (w, t) := (safe_deref (s := (w, t)) .put hp).mpr hf
  have hfl : p.full = true := by simp [Part.full, hfull]
  have hz : u64 (((0 : Nat) : Int) + 0) = 0 := rfl
  rw [writeLoop]
  simp only [Prog.within_bind, safe_fields, run_fields, hup, Nat.ne_of_lt h0, if_false, openPutPart, safe_update,
    run_update, hp, Option.getD_some, hset, hw, hs, hd, hsd, hfl, if_true, hz, u64_sub_zero hlt, h0, List.drop_zero, hf,
    and_self, true_and]
  cases (switchMputMode S).run (w, t) <;> exact Iff.rfl

theorem safe_writeLoop_mput_room (hup : w.uptype = .MPUT) (hp : w.mputPart = some p) (hroom : p.woff ≠ p.partSize)
    (hf : w.Fits) (h0 : 0 < data.length) (hlt : data.length < 2 ^ 31) :
    Safe (writeLoop S (fuel + 1) data data.length 0 data.length) (w, t) ↔ p.woff + data.length ≤ p.partSize := by
  have hw := Part.run_write (s := (w, t)) .mput data data.length hp hroom
  have hs : Safe (Part.write .mput data data.length) (w, t) ↔ p.woff + data.length ≤ p.partSize :=
    safe_write .mput hp hroom hf
  unfold writeLoop
  simp only [Prog.within_bind, safe_fields, run_fields, hup, Nat.ne_of_lt h0, if_false, hs, hw, hf, u64_wrote hlt,
    true_and]
  refine ⟨fun h => h.1, fun h => ⟨h, ?_⟩⟩
  have hf₂ : (w.setPart .mput (some (p.append data data.length))).Fits := hf.setPart _ h
  have hsafe : Safe (uploadFull S) (w.setPart .mput (some (p.append data data.length)), t) :=
    safe_uploadFull rfl hf₂
  refine ⟨hsafe, ?_⟩
  have hend := hsafe.finish
  cases hu : (uploadFull S).run (w.setPart .mput (some (p.append data data.length)), t) with
  | error e s' => trivial
  | ok a s' =>
    rw [hu] at hend
    exact safe_writeLoop_done hend

end Loop

/-- Around the loop `write` only reads and advances its offset. -/
theorem safe_write_iff {off n : Nat} {data : List Byte} (h : w.nextWriteOffset = off) (hf : w.Fits) :
    Safe (write S off n data) (w, t) ↔ Safe (writeData S data n) (w, t) := by
  simp only [write, Prog.within_bind, safe_fields, run_fields, h, ne_eq, not_true_eq_false, if_false, safe_update,
    run_update, Prog.within_pure, hf, true_and]
  refine ⟨fun h => h.1, fun h => ⟨h, ?_⟩⟩
  have hend := h.finish
  cases hrun : (writeData S data n).run (w, t) with
  | error e s' => trivial
  | ok a s' =>
    rw [hrun] at hend
    exact ⟨⟨hend, hend⟩, hend⟩

/-! ### Sequential writes -/

/-- Every `minit` and `mput` succeeds, and `minit` answers with parts of 8 MiB. -/
structure UploadStor.Succeeds (S : UploadStor σ) : Prop where
  minit : ∀ req t, ∃ id t', S.minit req t = .ok { partSize := MB_8, uploadId := id } t'
  mput : ∀ req t, ∃ t', S.mput req t = .ok () t'

/-- Calls of `write` for one chunk after the other, from the offset `off` on. -/
def writeAll (S : UploadStor σ) : Nat → List (List Byte) → WriterM σ Unit
  | _, [] => pure ()
  | off, chunk :: chunks => do
    let _ ← write S off chunk.length chunk
    writeAll S (off + chunk.length) chunks

/-- No chunk, from the offset `off` on, runs over an 8 MiB boundary. -/
def Aligned : Nat → List (List Byte) → Prop
  | _, [] => True
  | off, chunk :: chunks => off % MB_8 + chunk.length ≤ MB_8 ∧ Aligned (off + chunk.length) chunks

/-- The parts after `off` bytes were written without running over a boundary. -/
inductive FilledTo (off : Nat) (w : SequenceWriter) : Prop where
  | put (hup : w.uptype = .PUT) (hoff : w.nextWriteOffset = off) (hle : off ≤ MB_8) (hwoff : w.putOrNew.woff = off)
    (hsize : w.putOrNew.partSize = MB_8) (hmput : w.mputPart = none)
  | mput (hup : w.uptype = .MPUT) (hoff : w.nextWriteOffset = off) (hput : w.putPart = none) {p : Part}
    (hp : w.mputPart = some p) (hwoff : p.woff = off % MB_8) (hsize : p.partSize = MB_8)

namespace FilledTo
variable {off : Nat} {data : List Byte}

theorem fits (h : FilledTo off w) : w.Fits := by
  intro slot p hp
  cases h with
  | put hup hoff hle hwoff hsize hmput =>
    cases slot with
    | put =>
      simp only [part] at hp
      simp only [putOrNew, hp, Option.getD_some] at hwoff hsize
      omega
    | mput => simp [part, hmput] at hp
  | mput hup hoff hput hp' hwoff hsize =>
    cases slot with
    | put => simp [part, hput] at hp
    | mput =>
      cases hp'.symm.trans hp
      rw [hwoff, hsize]
      exact Nat.le_of_lt (Nat.mod_lt _ (by decide))

theorem offset (h : FilledTo off w) : w.nextWriteOffset = off := by
  cases h with
  | put _ hoff => exact hoff
  | mput _ hoff => exact hoff

theorem new {path : Str} : FilledTo 0 (.new path) := .put rfl rfl (Nat.zero_le _) rfl rfl rfl

/-- A turn of the loop in MPUT mode. -/
theorem loop_mput (fuel : Nat) (hS : S.Succeeds) (h : FilledTo off w) (hup : w.uptype = .MPUT) (h0 : 0 < data.length)
    (hlt : data.length < 2 ^ 31) :
    (Safe (writeLoop S (fuel + 1) data data.length 0 data.length) (w, t) ↔ off % MB_8 + data.length ≤ MB_8) ∧
    (off % MB_8 + data.length ≤ MB_8 → ∃ w' t', (writeLoop S (fuel + 1) data data.length 0 data.length).run (w, t) =
      .ok () (w', t') ∧ FilledTo (off + data.length) (w'.advance data.length)) := by
  have hf := h.fits
  cases h with
  | put hup' => rw [hup] at hup'; cases hup'
  | mput _ hoff hput hp hwoff hsize =>
    rename_i p
    have hlt₈ : off % MB_8 < MB_8 := Nat.mod_lt _ (by decide)
    have hroom : p.woff ≠ p.partSize := by omega
    rw [safe_writeLoop_mput_room hup hp hroom hf h0 hlt, run_writeLoop_mput_room hup hp hroom h0 hlt, hwoff, hsize]
    refine ⟨Iff.rfl, fun hle => ?_⟩
    let q := p.append data data.length
    by_cases hfull : q.woff = q.partSize
    · obtain ⟨t', ht'⟩ := hS.mput ((w.setPart .mput (some q)).mputReq q) t
      refine ⟨(w.setPart .mput (some q)).nextPart.setPart .mput (some q.clear), t', ?_, ?_⟩
      · rw [run_uploadFull (p := q) rfl hfull, ht']
      · refine .mput hup (congrArg (· + data.length) hoff) hput (p := q.clear) rfl ?_ hsize
        -- The part that was sent ends at the boundary.
        have hend : off % MB_8 + data.length = MB_8 := by
          simp only [q, Part.append] at hfull
          omega
        show 0 = (off + data.length) % MB_8
        unfold MB_8 at *
        omega
    · refine ⟨w.setPart .mput (some q), t, run_uploadFull_not rfl hfull, ?_⟩
      refine .mput hup (congrArg (· + data.length) hoff) hput (p := q) rfl ?_ hsize
      have hend : off % MB_8 + data.length < MB_8 := by
        simp only [q, Part.append] at hfull
        omega
      show p.woff + data.length = (off + data.length) % MB_8
      unfold MB_8 at *
      omega

/-- A full first part is uploaded and gives way to an empty one. -/
theorem switch (hS : S.Succeeds) (h : FilledTo off w) (hup : w.uptype = .PUT) (hfull : off = MB_8) :
    ∃ p w' t', w.putPart = some p ∧ p.woff = p.partSize ∧ Safe (switchMputMode S) (w, t) ∧
      (switchMputMode S).run (w, t) = .ok () (w', t') ∧ w'.uptype = .MPUT ∧ FilledTo off w' := by
  have hf := h.fits
  cases h with
  | mput hup' => rw [hup] at hup'; cases hup'
  | put _ hoff hle hwoff hsize hmput =>
    obtain ⟨p, hput⟩ : ∃ p, w.putPart = some p := by
      cases hput : w.putPart with
      | some p => exact ⟨p, rfl⟩
      | none =>
        simp only [putOrNew, hput, Option.getD_none, Part.new] at hwoff
        exact absurd (hwoff.trans hfull) (by decide)
    simp only [putOrNew, hput, Option.getD_some] at hwoff hsize
    obtain ⟨id, t₁, hinit⟩ := hS.minit { objKey := w.filePath } t
    let r : MInitResp := { partSize := MB_8, uploadId := id }
    obtain ⟨t₂, hmput'⟩ := hS.mput ((w.beginMput r).mputReq p) t₁
    have hsize' : r.partSize = p.woff := by rw [hwoff, hfull]
    have hlt : r.partSize < 2 ^ 64 := show MB_8 < 2 ^ 64 by decide
    refine ⟨p, (w.beginMput r).nextPart.setPart .put none, t₂, hput, by rw [hwoff, hsize, hfull],
      safe_switchMputMode hput hinit hlt hsize' hf, ?_, rfl, .mput rfl hoff rfl (p := Part.new MB_8) rfl ?_ rfl⟩
    · rw [run_switchMputMode_upload hput hinit hlt hsize', hmput']
    · rw [hfull, Nat.mod_self]
      rfl

theorem loop (hS : S.Succeeds) (h : FilledTo off w) (h0 : 0 < data.length) (hlt : data.length < 2 ^ 31) :
    (Safe (writeData S data data.length) (w, t) ↔ off % MB_8 + data.length ≤ MB_8) ∧
    (off % MB_8 + data.length ≤ MB_8 → ∃ w' t', (writeData S data data.length).run (w, t) =
      .ok () (w', t') ∧ FilledTo (off + data.length) (w'.advance data.length)) := by
  rw [writeData]
  cases hup : w.uptype with
  | MPUT => exact h.loop_mput _ hS hup h0 hlt
  | PUT =>
    by_cases hfull : off = MB_8
    · -- The part before the boundary is full: this write begins the upload.
      obtain ⟨p, w', t', hput, hpfull, hsafe, hrun, hup', hat⟩ := h.switch (t := t) hS hup hfull
      have := hat.loop_mput (t := t') (data.length + 1) hS hup' h0 hlt
      rw [safe_writeLoop_put_full hup hput hpfull h.fits h0 hlt, run_writeLoop_put_full hup hput hpfull h0 hlt, hrun]
      exact ⟨(and_iff_right hsafe).trans this.1, this.2⟩
    · have hf := h.fits
      cases h with
      | mput hup' => rw [hup] at hup'; cases hup'
      | put _ hoff hle hwoff hsize hmput =>
        have hroom : w.putOrNew.woff ≠ w.putOrNew.partSize := by omega
        have hmod : off % MB_8 = off := Nat.mod_eq_of_lt (by omega)
        rw [safe_writeLoop_put_room hup rfl hroom hf (by omega) h0 hlt, run_writeLoop_put_room hup rfl hroom h0 hlt, hwoff,
          hsize, hmod]
        refine ⟨Iff.rfl, fun hle' => ⟨_, t, rfl, ?_⟩⟩
        refine .put hup (congrArg (· + data.length) hoff) hle' ?_ hsize hmput
        show w.putOrNew.woff + data.length = off + data.length
        rw [hwoff]

/-- The step lemma: a write at its offset is safe exactly when it does not run over a boundary. -/
theorem write (hS : S.Succeeds) (h : FilledTo off w) (hlt : data.length < 2 ^ 31) :
    (Safe (write S off data.length data) (w, t) ↔ off % MB_8 + data.length ≤ MB_8) ∧
    (off % MB_8 + data.length ≤ MB_8 → ∃ n w' t', (write S off data.length data).run (w, t) =
      .ok n (w', t') ∧ FilledTo (off + data.length) w') := by
  have hloop : (Safe (writeData S data data.length) (w, t) ↔ off % MB_8 + data.length ≤ MB_8) ∧
      (off % MB_8 + data.length ≤ MB_8 → ∃ w' t', (writeData S data data.length).run (w, t) =
        .ok () (w', t') ∧ FilledTo (off + data.length) (w'.advance data.length)) := by
    by_cases h0 : 0 < data.length
    · exact h.loop hS h0 hlt
    · have hz : data.length = 0 := Nat.eq_zero_of_not_pos h0
      rw [hz, run_writeData_nil]
      refine ⟨iff_of_true (safe_writeLoop_done h.fits) (Nat.le_of_lt (Nat.mod_lt _ (by decide))), fun _ => ⟨w, t, rfl, h⟩⟩
  rw [safe_write_iff h.offset h.fits, run_write h.offset]
  refine ⟨hloop.1, fun hle => ?_⟩
  obtain ⟨w', t', hrun, hat⟩ := hloop.2 hle
  exact ⟨_, _, t', by rw [hrun], hat⟩

end FilledTo

/-- Over a store that succeeds, a stream of writes stays inside the buffers exactly when none of its chunks
    runs over an 8 MiB boundary. -/
theorem writeAll_safe_iff_aligned (hS : S.Succeeds) {path : Str} {chunks : List (List Byte)}
    (hlt : ∀ chunk ∈ chunks, chunk.length < 2 ^ 31) :
    Safe (writeAll S 0 chunks) (.new path, t) ↔ Aligned 0 chunks := by
  suffices ∀ off w, FilledTo off w → ∀ t, Safe (writeAll S off chunks) (w, t) ↔ Aligned off chunks from this 0 _ .new t
  induction chunks with
  | nil => exact fun off w hat t => iff_of_true ((Prog.within_pure ()).mpr hat.fits) trivial
  | cons chunk chunks ih =>
    intro off w hat t
    obtain ⟨hsafe, hnext⟩ := hat.write (t := t) hS (hlt chunk List.mem_cons_self)
    simp only [writeAll, Aligned, Prog.within_bind]
    refine (and_congr hsafe Iff.rfl).trans (and_congr_right fun hle => ?_)
    obtain ⟨n, w', t', hrun, hat'⟩ := hnext hle
    rw [hrun]
    exact ih (fun c hc => hlt c (List.mem_cons_of_mem _ hc)) _ _ hat' t'

theorem s3_succeeds : (Policy.s3 fun _ => false).stor.Succeeds :=
  ⟨fun _ _ => ⟨_, _, rfl⟩, fun _ _ => ⟨_, rfl⟩⟩

theorem writeAll_safe_small :
    Safe (writeAll (Policy.s3 fun _ => false).stor 0 [[1, 2], [3]]) (.new ['a'], []) :=
  (writeAll_safe_iff_aligned s3_succeeds (by decide)).mpr (by simp [Aligned, MB_8])

/-- After one byte less than 8 MiB, two bytes reach behind the buffer. -/
theorem overrun_unsafe {chunk : List Byte} (hlen : chunk.length = MB_8 - 1) :
    ¬ Safe (writeAll (Policy.s3 fun _ => false).stor 0 [chunk, [1, 2]]) (.new ['a'], []) := by
  intro h
  unfold MB_8 at hlen
  have hle : 0 % MB_8 + chunk.length ≤ MB_8 := by
    unfold MB_8
    omega
  obtain ⟨n, w, log, hrun, hat⟩ := (@FilledTo.write _ _ (.new ['a']) [] 0 chunk s3_succeeds .new (by omega)).2 hle
  have hsecond := (@FilledTo.write _ _ w log _ [1, 2] s3_succeeds hat (by decide)).1
  have hrest := (Prog.within_bind.mp h).2
  rw [hrun] at hrest
  have hover : (0 + chunk.length) % MB_8 + 2 ≤ MB_8 := hsecond.mp (Prog.within_bind.mp hrest).1
  unfold MB_8 at hover
  omega

theorem write_over_boundary_unsafe :
    ¬ Safe (writeAll (Policy.s3 fun _ => false).stor 0 [List.replicate (MB_8 - 1) 0, [1, 2]]) (.new ['a'], []) :=
  overrun_unsafe List.length_replicate

end Catfs
