import Catfs.Lib.Ends
import Catfs.Theorems.WriteOutcome

/-! # The loops of the writer end

The loop of `write_data` takes at most three turns, and the copy loop of `switch_mput_mode` one: `Part::write` writes all
that it is given unless the part is full, a full first part gives way to the part of an upload, and a full part of an
upload is sent and cleared. What stops them before that is a `minit` or an `mput` that throws. -/

namespace Catfs

open Lib WriterM SequenceWriter
open EStateM (Result)

variable {σ : Type} {S : UploadStor σ} {w : SequenceWriter} {t : σ} {fuel n : Nat} {data : List Byte} {p : Part}

/-! ### The states between two writes -/

/-- The calls of the store that a write makes. -/
def WriterAct.IsUpload (l : WriterAct) : Prop := l = .minit ∨ l = .mput

/-- The first part is of 8 MiB while nothing else is there, and what it counts was copied to it; from then on there is a
    part of the upload, of at least one byte. Either of them may be full. -/
structure SequenceWriter.Usable (w : SequenceWriter) : Prop where
  put : w.uptype = .PUT → w.putOrNew.partSize = MB_8
  held : w.uptype = .PUT → w.putOrNew.woff ≤ w.putOrNew.buf.length
  mput : w.uptype = .MPUT → ∃ p, w.mputPart = some p ∧ 1 ≤ p.partSize

/-- The turns that the loop takes at most. -/
def SequenceWriter.turns (w : SequenceWriter) : Nat :=
  match w.uptype with
  | .PUT => if w.putOrNew.full then 3 else 1
  | .MPUT => if w.mputPart.any Part.full then 2 else 1

/-- The parts that the store asks for are of at least one byte. -/
def UploadStor.PartsOfBytes (S : UploadStor σ) : Prop :=
  ∀ req t r t', S.minit req t = .ok r t' → 1 ≤ r.partSize ∧ r.partSize < 2 ^ 64

/-- The run returns with `Q`, or a call of the store throws; the next write finds a usable state then. -/
abbrev UploadEnds {α : Type} (Q : α → SequenceWriter × σ → Prop) (p : WriterM σ α) (s : SequenceWriter × σ) : Prop :=
  p.Ends WriterAct.IsUpload Q (fun s => s.1.Usable) s

theorem ends_call {α : Type} {Q : α → SequenceWriter × σ → Prop} {l : WriterAct} (hl : l.IsUpload) {f : EStateM Err σ α}
    (hw : w.Usable) (hok : ∀ a t', f t = .ok a t' → Q a (w, t')) : UploadEnds Q (call l f) (w, t) := by
  rw [UploadEnds, call, Prog.ends_lift]
  cases hf : f t with
  | ok a t' =>
    simp only [zoom, hf]
    exact hok a t' hf
  | error e t' =>
    simp only [zoom, hf]
    exact ⟨hw, hl⟩

theorem ends_uploadPart (slot : Slot) (hp : w.part slot = some p) (hw : w.Usable) :
    UploadEnds (fun _ s => s.1 = w.nextPart) (uploadPart S slot) (w, t) := by
  have hd : (deref slot : WriterM σ _).run (w.nextPart, t) = .ok p (w.nextPart, t) := run_deref ((part_nextPart slot).trans hp)
  have hnext : w.nextPart.Usable := ⟨hw.put, hw.held, hw.mput⟩
  rw [UploadEnds, uploadPart, Prog.ends_bind_ok run_fields]
  dsimp only
  rw [Prog.ends_bind_ok (run_update _)]
  refine (Prog.ends_bind_ok hd).2 ?_
  exact ends_call (.inr rfl) hnext fun _ _ _ => rfl

/-- What is left of a part of the upload has room. -/
theorem ends_uploadFull (hup : w.uptype = .MPUT) (hp : w.mputPart = some p) (hpos : 1 ≤ p.partSize) :
    UploadEnds (fun _ s => s.1.Usable ∧ s.1.turns = 1) (uploadFull S) (w, t) := by
  have hnot : ∀ {P : Prop}, w.uptype = .PUT → P := fun h => by
    rw [hup] at h
    cases h
  have hw : w.Usable := ⟨hnot, hnot, fun _ => ⟨p, hp, hpos⟩⟩
  have hd : ∀ (w' : SequenceWriter) (t' : σ), w'.mputPart = some p → (deref .mput : WriterM σ _).run (w', t') = .ok p (w', t') :=
    fun w' t' h => run_deref h
  by_cases hfull : p.woff = p.partSize
  · have hpfull : p.full = true := by simp only [Part.full, hfull, beq_self_eq_true]
    rw [UploadEnds, uploadFull, Prog.ends_bind_ok (hd w t hp), if_pos hpfull, Prog.ends_bind]
    refine (ends_uploadPart .mput hp hw).mono (fun _ s hs => ?_) fun _ h => h
    obtain ⟨w', t'⟩ := s
    cases hs
    refine (Prog.ends_bind_ok (hd w.nextPart t' hp)).2 ((Prog.ends_of_ok (run_update _)).2 ?_)
    have hroom : p.clear.full = false := beq_false_of_ne (Nat.ne_of_gt hpos)
    refine ⟨⟨hnot, hnot, fun _ => ⟨p.clear, rfl, hpos⟩⟩, ?_⟩
    have hup' : (w.nextPart.setPart .mput (some p.clear)).uptype = .MPUT := hup
    have hpart : (w.nextPart.setPart .mput (some p.clear)).mputPart = some p.clear := rfl
    simp only [turns, hup', hpart, Option.any_some, hroom, Bool.false_eq_true, if_false]
  · have hroom : p.full = false := beq_false_of_ne (Ne.symm hfull)
    rw [UploadEnds, Prog.ends_of_ok (run_uploadFull_not hp hfull)]
    refine ⟨hw, ?_⟩
    simp only [turns, hup, hp, Option.any_some, hroom, Bool.false_eq_true, if_false]

/-! ### The copy loop -/

/-- The copy loop moves the whole first part in one turn: the part it fills is not full before, and cannot be after,
    since its size is not the first part's. -/
theorem copyLoop_ends (hput : w.putPart = some p) (hsize : p.partSize = MB_8) (hfull : p.woff = p.partSize)
    {r : MInitResp} (hpos : 1 ≤ r.partSize) (hlt : r.partSize < 2 ^ 64) (hcap : (Part.new r.partSize).cap ≠ p.len)
    (hfuel : 1 ≤ fuel) : (copyLoop S fuel 0 p.len).run (w.beginMput r, t) =
      .ok () ((w.beginMput r).setPart .mput (some ((Part.new r.partSize).append p.buf p.woff)), t) := by
  obtain ⟨fuel, rfl⟩ : ∃ f, fuel = f + 1 := ⟨fuel - 1, by omega⟩
  have hwoff : p.woff = MB_8 := hfull.trans hsize
  have hne : r.partSize ≠ p.woff := fun heq => hcap ((Part.cap_new hlt).trans heq)
  refine run_copyLoop fuel hput rfl ?_ ?_ ?_ ?_
  · exact Nat.ne_of_lt hpos
  · simp only [Part.new]
    omega
  · rw [hwoff]
    exact MB_8_pos
  · rw [hwoff]
    exact MB_8_lt

/-- The switch of modes leaves a part of the upload. -/
theorem ends_switchMputMode (hS : S.PartsOfBytes) (hw : w.Usable) (hup : w.uptype = .PUT) (hput : w.putPart = some p)
    (hfull : p.woff = p.partSize) :
    UploadEnds (fun _ s => s.1.Usable ∧ s.1.uptype = .MPUT) (switchMputMode S) (w, t) := by
  have hsize : p.partSize = MB_8 := by
    have h := hw.put hup
    rwa [putOrNew, hput, Option.getD_some] at h
  rw [UploadEnds, switchMputMode, Prog.ends_bind_ok run_fields, Prog.ends_bind]
  refine ends_call (.inl rfl) hw fun r t' hr => ?_
  obtain ⟨hpos, hlt⟩ := hS _ _ _ _ hr
  have hbegun : (w.beginMput r).Usable := ⟨fun h => (by cases h), fun h => (by cases h), fun _ => ⟨_, rfl, hpos⟩⟩
  have hm : (deref .mput : WriterM σ _).run (w.beginMput r, t') = .ok (Part.new r.partSize) (w.beginMput r, t') :=
    run_deref rfl
  have hp : (deref .put : WriterM σ _).run (w.beginMput r, t') = .ok p (w.beginMput r, t') := run_deref hput
  rw [Prog.ends_bind_ok (run_update _), Prog.ends_bind_ok (run_update _), Prog.ends_bind_ok (run_update _),
    Prog.ends_bind_ok (run_update _)]
  refine (Prog.ends_bind_ok hm).2 ((Prog.ends_bind_ok hp).2 ?_)
  by_cases hcap : (Part.new r.partSize).cap = p.len
  · have hsend : UploadEnds (fun _ s => s.1 = (w.beginMput r).nextPart) (uploadPart S .put) (w.beginMput r, t') :=
      ends_uploadPart .put hput hbegun
    rw [if_pos hcap, Prog.ends_bind]
    refine hsend.mono (fun _ s hs => ?_) fun _ h => h
    obtain ⟨w', t''⟩ := s
    cases hs
    refine (Prog.ends_of_ok (run_update _)).2 ⟨⟨fun h => (by cases h), fun h => (by cases h), fun _ => ⟨_, rfl, hpos⟩⟩, rfl⟩
  · rw [if_neg hcap]
    have hturn : 1 ≤ p.len + 1 := Nat.le_add_left ..
    refine (Prog.ends_bind_ok (copyLoop_ends hput hsize hfull hpos hlt hcap hturn)).2 ((Prog.ends_of_ok (run_update _)).2 ?_)
    exact ⟨⟨fun h => (by cases h), fun h => (by cases h), fun _ => ⟨_, rfl, hpos⟩⟩, rfl⟩

/-! ### The loop of `write_data` -/

section
variable {Q : Nat → SequenceWriter × σ → Prop}

theorem ends_writeBytes_put_full (hup : w.uptype = .PUT) (hp : w.putPart = some p) (hfull : p.woff = p.partSize)
    (h0 : 0 < n) (hlt : n < 2 ^ 31) : UploadEnds Q (writeBytes S (fuel + 1) data n 0 n) (w, t) ↔
      UploadEnds (fun _ => UploadEnds Q (writeBytes S fuel data n 0 n)) (switchMputMode S) (w, t) := by
  have hset : w.setPart .put (some p) = w := by rw [← hp]; rfl
  have hopen : (openPutPart : WriterM σ _).run (w, t) = .ok () (w, t) := by
    rw [openPutPart, run_update, hp, Option.getD_some, hset]
  have hw := Part.run_write_full (s := (w, t)) .put data n hp hfull
  have hd : (deref .put : WriterM σ _).run (w, t) = .ok p _ := run_deref hp
  have hf : p.full = true := by simp [Part.full, hfull]
  have hz : u64 (((0 : Nat) : Int) + 0) = 0 := rfl
  rw [writeBytes, if_neg (Nat.ne_of_lt h0)]
  dsimp only
  rw [UploadEnds, Prog.ends_bind_ok run_fields, hup]
  dsimp only
  rw [Prog.ends_bind_ok hopen, Prog.ends_bind_ok hw, Prog.ends_bind_ok hd, if_pos hf, hz, u64_sub_zero hlt, if_pos h0,
    Prog.ends_bind, List.drop_zero]

theorem ends_writeBytes_mput_full (hup : w.uptype = .MPUT) (hp : w.mputPart = some p) (hfull : p.woff = p.partSize)
    (h0 : 0 < n) (hlt : n < 2 ^ 31) : UploadEnds Q (writeBytes S (fuel + 1) data n 0 n) (w, t) ↔
      UploadEnds (fun _ => UploadEnds Q (writeBytes S fuel data n 0 n)) (uploadFull S) (w, t) := by
  have hw := Part.run_write_full (s := (w, t)) .mput data n hp hfull
  have hz : u64 (((0 : Nat) : Int) + 0) = 0 := rfl
  rw [writeBytes, if_neg (Nat.ne_of_lt h0)]
  dsimp only
  rw [UploadEnds, Prog.ends_bind_ok run_fields, hup]
  dsimp only
  rw [Prog.ends_bind_ok hw, hz, u64_sub_zero hlt, Prog.ends_bind, List.drop_zero]

theorem ends_writeBytes_mput_room (hup : w.uptype = .MPUT) (hp : w.mputPart = some p) (hroom : p.woff ≠ p.partSize)
    (h0 : 0 < n) (hlt : n < 2 ^ 31) : UploadEnds Q (writeBytes S (fuel + 1) data n 0 n) (w, t) ↔
      UploadEnds (fun _ => Q n) (uploadFull S) (w.setPart .mput (some (p.append data n)), t) := by
  have hw := Part.run_write (s := (w, t)) .mput data n hp hroom
  rw [writeBytes, if_neg (Nat.ne_of_lt h0)]
  dsimp only
  rw [UploadEnds, Prog.ends_bind_ok run_fields, hup]
  dsimp only
  rw [Prog.ends_bind_ok hw, u64_wrote hlt, Prog.ends_bind]
  refine iff_of_eq (congrArg (fun Q => Prog.Ends _ Q _ _ _) (funext fun _ => funext fun s => propext ?_))
  exact Prog.ends_of_ok run_writeBytes_done

end

theorem turns_le (hup : w.uptype = .MPUT) : w.turns ≤ 2 := by
  simp only [turns, hup]
  split
  · exact Nat.le_refl _
  · exact Nat.le_succ _

theorem turns_pos : 1 ≤ w.turns := by
  unfold turns
  split <;> split <;> decide

/-- The loop writes everything within its turns: the induction is on the fuel, and each turn that writes nothing leaves
    a state with fewer of them. -/
theorem ends_writeBytes (hS : S.PartsOfBytes) (hw : w.Usable) (hfuel : w.turns ≤ fuel) (hn : n ≤ data.length)
    (hlt : n < 2 ^ 31) :
    UploadEnds (fun k s => k = n ∧ s.1.Usable) (writeBytes S fuel data n 0 n) (w, t) := by
  obtain rfl | h0 := Nat.eq_zero_or_pos n
  · exact (Prog.ends_of_ok run_writeBytes_done).2 ⟨rfl, hw⟩
  induction fuel generalizing w t with
  | zero => exact absurd hfuel (Nat.not_le_of_gt turns_pos)
  | succ fuel ih =>
    cases hup : w.uptype with
    | PUT =>
      by_cases hfull : w.putOrNew.woff = w.putOrNew.partSize
      · -- A full first part: the turn only switches the mode.
        have hpfull : w.putOrNew.full = true := by simp only [Part.full, hfull, beq_self_eq_true]
        have hturns : w.turns = 3 := by simp only [turns, hup, hpfull, if_true]
        refine (ends_writeBytes_put_full hup (putPart_of_full hfull) hfull h0 hlt).2 ?_
        refine (ends_switchMputMode hS hw hup (putPart_of_full hfull) hfull).mono (fun _ s hs => ?_) fun _ h => h
        have hle := turns_le hs.2
        exact ih hs.1 (by omega)
      · have hheld := hw.held hup
        refine (Prog.ends_of_ok (run_writeBytes_put_room hup rfl hfull h0 hlt)).2 ⟨rfl, fun _ => hw.put hup, fun _ => ?_,
          fun h => ?_⟩
        · show w.putOrNew.woff + n ≤ (w.putOrNew.buf.take w.putOrNew.woff ++ data.take n).length
          rw [List.length_append, List.length_take, List.length_take, Nat.min_eq_left hheld, Nat.min_eq_left hn]
        · cases hup.symm.trans h
    | MPUT =>
      obtain ⟨p, hp, hpos⟩ := hw.mput hup
      by_cases hfull : p.woff = p.partSize
      · -- A part left full by a write that failed: the turn sends and clears it.
        have hpfull : p.full = true := by simp only [Part.full, hfull, beq_self_eq_true]
        have hturns : w.turns = 2 := by simp only [turns, hup, hp, Option.any_some, hpfull, if_true]
        refine (ends_writeBytes_mput_full hup hp hfull h0 hlt).2 ?_
        exact (ends_uploadFull hup hp hpos).mono (fun _ s hs => ih hs.1 (by omega)) fun _ h => h
      · have hwrote : (w.setPart .mput (some (p.append data n))).uptype = .MPUT := hup
        refine (ends_writeBytes_mput_room hup hp hfull h0 hlt).2 ?_
        exact (ends_uploadFull (p := p.append data n) hwrote rfl hpos).mono (fun _ s hs => ⟨rfl, hs.1⟩) fun _ h => h

/-! ### Runs of writes -/

/-- The states that writes of less than 2 GiB leave, those that threw among them; between two of them other files use
    the store. -/
inductive Written (S : UploadStor σ) : SequenceWriter × σ → Prop where
  | new (path : Str) (t : σ) : Written S (.new path, t)
  | write {s : SequenceWriter × σ} (h : Written S s) (off : Nat) (data : List Byte) (hlt : data.length < 2 ^ 31) :
      Written S (endState ((SequenceWriter.write S off data.length data).run s))
  | other {s : SequenceWriter × σ} (h : Written S s) (t : σ) : Written S (s.1, t)

theorem turns_le_three : w.turns ≤ 3 := by
  unfold turns
  split <;> split <;> decide

theorem ends_writeData (hS : S.PartsOfBytes) (hw : w.Usable) (hn : n ≤ data.length) (hlt : n < 2 ^ 31) :
    UploadEnds (fun _ s => s.1.Usable) (writeData S data n) (w, t) := by
  rw [UploadEnds, writeData, writeLoop_eq, Prog.ends_map]
  exact (ends_writeBytes hS hw (Nat.le_trans turns_le_three (Nat.le_add_left ..)) hn hlt).mono (fun _ _ h => h.2)
    fun _ h => h

theorem usable_write (hS : S.PartsOfBytes) (hw : w.Usable) (off : Nat) (hn : n ≤ data.length) (hlt : n < 2 ^ 31) :
    (endState ((SequenceWriter.write S off n data).run (w, t))).1.Usable := by
  by_cases hoff : w.nextWriteOffset = off
  · have hends : UploadEnds (fun _ s => s.1.Usable) (SequenceWriter.write S off n data) (w, t) := by
      rw [UploadEnds, SequenceWriter.write, Prog.ends_bind_ok run_fields, if_neg (not_not_intro hoff), Prog.ends_bind]
      refine (ends_writeData hS hw hn hlt).mono (fun _ s hs => ?_) fun _ h => h
      exact (Prog.ends_bind_ok (run_update _)).2 ⟨hs.put, hs.held, hs.mput⟩
    exact hends.endState
  · rw [run_write_reject data hoff]
    exact hw

theorem Written.usable (hS : S.PartsOfBytes) {s : SequenceWriter × σ} (h : Written S s) : s.1.Usable := by
  induction h with
  | new path t => exact ⟨fun _ => rfl, fun _ => Nat.le_refl _, fun h => by cases h⟩
  | write _ off data hlt ih => exact usable_write hS ih off (Nat.le_refl _) hlt
  | other _ t ih => exact ih

/-- The next write runs its loop to the end in at most three turns, with everything written, unless `minit` or `mput`
    throws; and when it switches the mode by copying, the copy loop returns after one turn. -/
structure LoopsEnd (S : UploadStor σ) (data : List Byte) (s : SequenceWriter × σ) : Prop where
  loop : ∀ fuel, 3 ≤ fuel → (writeBytes S fuel data data.length 0 data.length).Ends WriterAct.IsUpload
    (fun wbytes _ => wbytes = data.length) (fun _ => True) s
  writeData : (writeData S data data.length).Ends WriterAct.IsUpload (fun _ _ => True) (fun _ => True) s
  copyLoop : ∀ p r t', s.1.uptype = .PUT → s.1.putPart = some p → p.full = true →
    S.minit { objKey := s.1.filePath } s.2 = .ok r t' → (Part.new r.partSize).cap ≠ p.len → ∀ fuel, 1 ≤ fuel →
      ∃ s', (copyLoop S fuel 0 p.len).run (s.1.beginMput r, t') = .ok () s'

/-- The loops end whatever the copies in them do to the memory behind the parts. -/
theorem loopsEnd (hS : S.PartsOfBytes) {s : SequenceWriter × σ} (h : Written S s) (hlt : data.length < 2 ^ 31) :
    LoopsEnd S data s := by
  have hw := h.usable hS
  refine ⟨fun fuel hfuel => ?_, ?_, fun p r t' hup hput hfull hr hcap fuel hfuel => ?_⟩
  · exact (ends_writeBytes hS hw (Nat.le_trans turns_le_three hfuel) (Nat.le_refl _) hlt).mono (fun _ _ h => h.1)
      fun _ _ => trivial
  · exact (ends_writeData hS hw (Nat.le_refl _) hlt).mono (fun _ _ _ => trivial) fun _ _ => trivial
  · have hsize : p.partSize = MB_8 := by
      have hp := hw.put hup
      rwa [putOrNew, hput, Option.getD_some] at hp
    obtain ⟨hpos, hlt'⟩ := hS _ _ _ _ hr
    exact ⟨_, copyLoop_ends hput hsize (beq_iff_eq.1 hfull).symm hpos hlt' hcap hfuel⟩

theorem partsOfBytes (P : Policy) : P.stor.PartsOfBytes := by
  intro req t r t' h
  cases hf : P.fails t.length with
  | true =>
    rw [stor_minit_error hf] at h
    cases h
  | false =>
    rw [stor_minit_ok hf] at h
    cases h
    exact ⟨P.partSize_pos _, P.partSize_lt _⟩

end Catfs
