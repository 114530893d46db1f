import Catfs.Writer

/-! # Runs of the writer's programs

What each method of `SequenceWriter` does, as equations of its run. A turn of the loop of `write_data`
falls in one of four cases: the part of the current mode has room or is full, in either mode. -/

namespace Catfs

open Lib WriterM

variable {σ α : Type} {S : UploadStor σ} {s : SequenceWriter × σ} {w : SequenceWriter} {t : σ}

/-! ### Integers -/

theorem u64_natCast {n : Nat} (h : n < 2 ^ 64) : u64 (n : Int) = n := by
  unfold u64
  omega

theorem toInt_of_lt {n : Nat} (h : n < 2 ^ 31) : toInt n = n := by
  unfold toInt
  exact Int.bmod_eq_of_le (by omega) (by omega)

@[simp] theorem u64_zero : u64 0 = 0 := rfl

/-- What `write` leaves of the counts of its caller after it wrote everything. -/
theorem u64_wrote {n : Nat} (h : n < 2 ^ 31) : u64 ((0 : Nat) + toInt n) = n := by
  rw [toInt_of_lt h]
  unfold u64
  omega

@[simp] theorem u64_sub_self {n : Nat} : u64 ((n : Int) - (n : Int)) = 0 := by
  simp [u64]

theorem u64_sub_zero {n : Nat} (h : n < 2 ^ 31) : u64 ((n : Int) - (0 : Nat)) = n := by
  unfold u64
  omega

/-! ### The steps -/

@[simp] theorem run_fields : (fields : WriterM σ _).run s = .ok s.1 s := by
  simp only [fields, Prog.run_lift]
  rfl

@[simp] theorem run_update (f : SequenceWriter → SequenceWriter) :
    (update f : WriterM σ _).run s = .ok () (f s.1, s.2) := by
  simp only [update, Prog.run_lift]
  rfl

@[simp] theorem run_call (l : WriterAct) (f : EStateM Err σ α) :
    (call l f).run s = match f s.2 with
      | .ok a t => .ok a (s.1, t)
      | .error e t => .error e (s.1, t) := by
  simp only [call, Prog.run_lift, zoom]
  cases f s.2 <;> rfl

theorem run_deref {slot : Slot} {p : Part} (h : s.1.part slot = some p) : (deref slot : WriterM σ _).run s = .ok p s := by
  simp [deref, Prog.run_bind_apply, h]

theorem run_deref_none {slot : Slot} (h : s.1.part slot = none) :
    (deref slot : WriterM σ _).run s = .error .nullDeref s := by
  simp [deref, Prog.run_bind_apply, h]

/-! ### Parts and slots -/

namespace SequenceWriter

/-- `mput_ctx.part_num++` -/
def nextPart (w : SequenceWriter) : SequenceWriter :=
  { w with mputCtx := { w.mputCtx with partNum := w.mputCtx.partNum + 1 } }

@[simp] theorem part_setPart (slot : Slot) (p : Option Part) : (w.setPart slot p).part slot = p := by
  cases slot <;> rfl

@[simp] theorem part_nextPart (slot : Slot) : w.nextPart.part slot = w.part slot := by
  cases slot <;> rfl

@[simp] theorem setPart_setPart (slot : Slot) (p q : Option Part) : (w.setPart slot p).setPart slot q = w.setPart slot q := by
  cases slot <;> rfl

/-- The request `upload_part` makes for `p`. -/
def mputReq (w : SequenceWriter) (p : Part) : MPutReq :=
  { objKey := w.filePath, uploadId := w.mputCtx.uploadId, partNum := w.mputCtx.partNum, data := p.buf, size := p.len }

/-- `mput_part` and `mput_ctx` after `minit` answered `r`. -/
def beginMput (w : SequenceWriter) (r : MInitResp) : SequenceWriter :=
  { w with mputPart := some (Part.new r.partSize), uptype := .MPUT, mputCtx := { uploadId := r.uploadId, partNum := 0 } }

end SequenceWriter

open SequenceWriter

theorem Part.cap_new {size : Nat} (h : size < 2 ^ 64) : (Part.new size).cap = size := by
  simp only [Part.cap, Part.new]
  unfold u64
  omega

theorem Part.run_write_full (slot : Slot) (data : List Byte) (size : Nat) {p : Part} (h : s.1.part slot = some p)
    (hp : p.woff = p.partSize) : (Part.write slot data size : WriterM σ _).run s = .ok 0 s := by
  simp [Part.write, Prog.run_bind_apply, run_deref h, hp]

theorem Part.run_write (slot : Slot) (data : List Byte) (size : Nat) {p : Part} (h : s.1.part slot = some p)
    (hp : p.woff ≠ p.partSize) :
    (Part.write slot data size : WriterM σ _).run s =
      .ok (toInt size) (s.1.setPart slot (some (p.append data size)), s.2) := by
  simp only [Part.write, Prog.run_bind_apply, run_deref h, hp, if_false, Prog.run_lift]
  rfl

theorem run_uploadPart (slot : Slot) {p : Part} (h : w.part slot = some p) :
    (uploadPart S slot).run (w, t) = match S.mput (w.mputReq p) t with
      | .ok _ t' => .ok () (w.nextPart, t')
      | .error e t' => .error e (w.nextPart, t') := by
  have hd : (deref slot : WriterM σ _).run (w.nextPart, t) = .ok p (w.nextPart, t) :=
    run_deref ((part_nextPart slot).trans h)
  simp only [nextPart] at hd
  simp only [uploadPart, Prog.run_bind_apply, run_fields, run_update, run_call, hd, mputReq, nextPart]
  cases S.mput _ t <;> rfl

theorem run_uploadFull_not {p : Part} (h : w.mputPart = some p) (hp : p.woff ≠ p.partSize) :
    (uploadFull S).run (w, t) = .ok () (w, t) := by
  have hd : (deref .mput : WriterM σ _).run (w, t) = .ok p (w, t) := run_deref h
  simp [uploadFull, Prog.run_bind_apply, hd, Part.full, Ne.symm hp]

theorem run_uploadFull {p : Part} (h : w.mputPart = some p) (hp : p.woff = p.partSize) :
    (uploadFull S).run (w, t) = match S.mput (w.mputReq p) t with
      | .ok _ t' => .ok () (w.nextPart.setPart .mput (some p.clear), t')
      | .error e t' => .error e (w.nextPart, t') := by
  have hd : (deref .mput : WriterM σ _).run (w, t) = .ok p (w, t) := run_deref h
  simp only [uploadFull, Prog.run_bind_apply, hd, Part.full, hp, beq_self_eq_true, if_true,
    run_uploadPart .mput (S := S) (t := t) h]
  cases S.mput (w.mputReq p) t with
  | error e t' => rfl
  | ok a t' =>
    have hd' : (deref .mput : WriterM σ _).run (w.nextPart, t') = .ok p (w.nextPart, t') := run_deref h
    simp only [hd', run_update]

/-! ### Switching to a multipart upload

`switch_mput_mode` is called with the put part full, so it either uploads that part, when the parts of
the upload have its size, or copies it: the first `copy` moves all of it, and the part it fills cannot be
full, since its size is not the put part's. -/

theorem run_copyLoop_done {fuel n : Nat} : (copyLoop S fuel n n).run (w, t) = .ok () (w, t) := by
  unfold copyLoop
  simp

theorem run_copyLoop (fuel : Nat) {p q : Part} (hput : w.putPart = some p) (hmput : w.mputPart = some q)
    (hq : q.woff ≠ q.partSize) (hq' : q.woff + p.woff ≠ q.partSize) (h0 : 0 < p.woff) (hlt : p.woff < 2 ^ 31) :
    (copyLoop S (fuel + 1) 0 p.len).run (w, t) =
      .ok () (w.setPart .mput (some (q.append p.buf p.woff)), t) := by
  have hsub : u64 ((p.woff : Int) - ((0 : Nat) : Int)) = p.woff := u64_sub_zero hlt
  have hd : (deref .put : WriterM σ _).run (w, t) = .ok p (w, t) := run_deref hput
  have hw := Part.run_write (s := (w, t)) .mput p.buf p.woff hmput hq
  have hn : u64 (toInt p.woff) = p.woff := by
    rw [toInt_of_lt hlt]
    exact u64_natCast (by omega)
  have hfull := run_uploadFull_not (S := S) (t := t) (w := w.setPart .mput (some (q.append p.buf p.woff)))
    (p := q.append p.buf p.woff) rfl hq'
  have hend : u64 (((0 : Nat) : Int) + ((p.woff : Nat) : Int)) = p.woff := by
    unfold u64
    omega
  unfold copyLoop
  simp only [Part.len, h0, if_true, Part.copy, Prog.run_bind_apply, hd, List.drop_zero, hsub, hw, Prog.run_pure, hn,
    hfull, hend, run_copyLoop_done]

/-- Before the upload of the first part or the copy of it, `switch_mput_mode` only asks the store for an
    upload id. -/
theorem run_switchMputMode_error {e : Err} {t' : σ} (h : S.minit { objKey := w.filePath } t = .error e t') :
    (switchMputMode S).run (w, t) = .error e (w, t') := by
  simp [switchMputMode, Prog.run_bind_apply, h]

theorem run_switchMputMode_upload {p : Part} {r : MInitResp} {t' : σ} (hput : w.putPart = some p)
    (h : S.minit { objKey := w.filePath } t = .ok r t') (hlt : r.partSize < 2 ^ 64) (hsize : r.partSize = p.woff) :
    (switchMputMode S).run (w, t) = match S.mput ((w.beginMput r).mputReq p) t' with
      | .ok _ t'' => .ok () ((w.beginMput r).nextPart.setPart .put none, t'')
      | .error e t'' => .error e ((w.beginMput r).nextPart, t'') := by
  have hm : (deref .mput : WriterM σ _).run (w.beginMput r, t') = .ok (Part.new r.partSize) (w.beginMput r, t') :=
    run_deref rfl
  have hp : (deref .put : WriterM σ _).run (w.beginMput r, t') = .ok p (w.beginMput r, t') := run_deref hput
  have hcap : (Part.new r.partSize).cap = p.len := (Part.cap_new hlt).trans hsize
  have hu := run_uploadPart (S := S) (t := t') (w := w.beginMput r) .put (p := p) hput
  simp only [beginMput] at hm hp hu
  simp only [switchMputMode, Prog.run_bind_apply, run_fields, run_call, h, run_update, hm, hp, hcap, if_true, hu,
    beginMput]
  cases S.mput _ t' <;> rfl

theorem run_switchMputMode_copy {p : Part} {r : MInitResp} {t' : σ} (hput : w.putPart = some p)
    (h : S.minit { objKey := w.filePath } t = .ok r t') (hlt : r.partSize < 2 ^ 64) (hpos : 1 ≤ r.partSize)
    (hsize : r.partSize ≠ p.woff) (h0 : 0 < p.woff) (hplt : p.woff < 2 ^ 31) :
    (switchMputMode S).run (w, t) =
      .ok () (((w.beginMput r).setPart .mput (some ((Part.new r.partSize).append p.buf p.woff))).setPart .put none, t') := by
  have hm : (deref .mput : WriterM σ _).run (w.beginMput r, t') = .ok (Part.new r.partSize) (w.beginMput r, t') :=
    run_deref rfl
  have hp : (deref .put : WriterM σ _).run (w.beginMput r, t') = .ok p (w.beginMput r, t') := run_deref hput
  have hcap : (Part.new r.partSize).cap ≠ p.len := fun h => hsize ((Part.cap_new hlt).symm.trans h)
  have hc := run_copyLoop (S := S) (t := t') (w := w.beginMput r) p.len (q := Part.new r.partSize) hput rfl
    (by simp only [Part.new]; omega) (by simp only [Part.new]; omega) h0 hplt
  simp only [beginMput] at hm hp hc
  simp only [switchMputMode, Prog.run_bind_apply, run_fields, run_call, h, run_update, hm, hp, hcap, if_false, hc]
  rfl

/-! ### The loop of `write_data` -/

/-- The part that PUT mode stages in: the first write of a handle allocates it. -/
def SequenceWriter.putOrNew (w : SequenceWriter) : Part := w.putPart.getD (Part.new MB_8)

/-- The loop of `write_data` with the value that it leaves `wbytes`. -/
def SequenceWriter.writeBytes (st : UploadStor σ) : Nat → List Byte → Nat → Nat → Nat → WriterM σ Nat
  | fuel, data, size, wbytes, total =>
    if wbytes = total then pure wbytes
    else
      match fuel with
      | 0 => Prog.fail .diverge
      | fuel + 1 => do
        match (← fields).uptype with
        | .PUT =>
          openPutPart
          let n ← Part.write .put data size
          let wbytes := u64 (wbytes + n)
          if (← deref .put).full then
            let leftBytes := u64 (size - wbytes)
            if 0 < leftBytes then do
              switchMputMode st
              writeBytes st fuel (data.drop wbytes) (u64 (size - wbytes)) wbytes total
            else pure wbytes
          else if wbytes = size then pure wbytes
          else writeBytes st fuel data size wbytes total
        | .MPUT =>
          let n ← Part.write .mput data size
          let wbytes := u64 (wbytes + n)
          uploadFull st
          writeBytes st fuel (data.drop wbytes) (u64 (size - wbytes)) wbytes total

section Loop
variable {fuel n : Nat} {data : List Byte} {p : Part}

/-- The loop of `write_data` drops the value. -/
theorem writeLoop_eq {size wbytes total : Nat} :
    writeLoop S fuel data size wbytes total = (fun _ => ()) <$> writeBytes S fuel data size wbytes total := by
  induction fuel generalizing data size wbytes with
  | zero =>
    rw [writeLoop, writeBytes, apply_ite (Functor.map _)]
    rfl
  | succ fuel ih =>
    rw [writeLoop, writeBytes, apply_ite (Functor.map _), Prog.map_bind]
    refine if_congr Iff.rfl rfl (congrArg _ (funext fun w => ?_))
    cases w.uptype with
    | PUT =>
      simp only [Prog.map_bind, apply_ite (Functor.map _), ih]
      rfl
    | MPUT =>
      simp only [Prog.map_bind, ih]

theorem run_writeBytes_done {size : Nat} : (writeBytes S fuel data size n n).run (w, t) = .ok n (w, t) := by
  unfold writeBytes
  simp

theorem run_writeLoop_done {size : Nat} : (writeLoop S fuel data size n n).run (w, t) = .ok () (w, t) := by
  rw [writeLoop_eq]
  exact Prog.run_map_ok run_writeBytes_done

theorem run_writeBytes_put_room (hup : w.uptype = .PUT) (hp : w.putOrNew = p) (hroom : p.woff ≠ p.partSize) (h0 : 0 < n)
    (hlt : n < 2 ^ 31) :
    (writeBytes S (fuel + 1) data n 0 n).run (w, t) = .ok n (w.setPart .put (some (p.append data n)), t) := by
  have hw := Part.run_write (s := (w.setPart .put (some p), t)) .put data n rfl hroom
  have hd : (deref .put : WriterM σ _).run (w.setPart .put (some (p.append data n)), t) = .ok (p.append data n) _ :=
    run_deref rfl
  rw [putOrNew] at hp
  unfold writeBytes
  simp only [Prog.run_bind_apply, run_fields, hup, Nat.ne_of_lt h0, if_false, openPutPart, run_update, hp, hw,
    setPart_setPart, u64_wrote hlt, hd, u64_sub_self, Nat.lt_irrefl, if_true]
  split <;> rfl

theorem run_writeLoop_put_room (hup : w.uptype = .PUT) (hp : w.putOrNew = p) (hroom : p.woff ≠ p.partSize)
    (h0 : 0 < n) (hlt : n < 2 ^ 31) :
    (writeLoop S (fuel + 1) data n 0 n).run (w, t) = .ok () (w.setPart .put (some (p.append data n)), t) := by
  rw [writeLoop_eq]
  exact Prog.run_map_ok (run_writeBytes_put_room hup hp hroom h0 hlt)

theorem run_writeLoop_put_full (hup : w.uptype = .PUT) (hp : w.putPart = some p) (hfull : p.woff = p.partSize)
    (h0 : 0 < n) (hlt : n < 2 ^ 31) :
    (writeLoop S (fuel + 1) data n 0 n).run (w, t) = match (switchMputMode S).run (w, t) with
      | .ok _ s' => (writeLoop S fuel data n 0 n).run s'
      | .error e s' => .error e s' := by
  have hset : w.setPart .put (some p) = w := by rw [← hp]; rfl
  have hw := Part.run_write_full (s := (w, t)) .put data n hp hfull
  have hd : (deref .put : WriterM σ _).run (w, t) = .ok p _ := run_deref hp
  have hf : p.full = true := by simp [Part.full, hfull]
  have hz : u64 (((0 : Nat) : Int) + 0) = 0 := rfl
  rw [writeLoop]
  simp only [Prog.run_bind_apply, run_fields, hup, Nat.ne_of_lt h0, if_false, openPutPart, run_update, hp,
    Option.getD_some, hset, hw, hd, hf, if_true, hz, u64_sub_zero hlt, h0, List.drop_zero]
  cases (switchMputMode S).run (w, t) <;> rfl

theorem run_writeLoop_mput_room (hup : w.uptype = .MPUT) (hp : w.mputPart = some p) (hroom : p.woff ≠ p.partSize)
    (h0 : 0 < n) (hlt : n < 2 ^ 31) :
    (writeLoop S (fuel + 1) data n 0 n).run (w, t) =
      (uploadFull S).run (w.setPart .mput (some (p.append data n)), t) := by
  have hw := Part.run_write (s := (w, t)) .mput data n hp hroom
  unfold writeLoop
  simp only [Prog.run_bind_apply, run_fields, hup, Nat.ne_of_lt h0, if_false, hw, u64_wrote hlt]
  cases (uploadFull S).run (w.setPart .mput (some (p.append data n)), t) with
  | ok a s' => exact run_writeLoop_done
  | error e s' => rfl

theorem run_writeLoop_mput_full (hup : w.uptype = .MPUT) (hp : w.mputPart = some p) (hfull : p.woff = p.partSize)
    (h0 : 0 < n) (hlt : n < 2 ^ 31) :
    (writeLoop S (fuel + 1) data n 0 n).run (w, t) = match (uploadFull S).run (w, t) with
      | .ok _ s' => (writeLoop S fuel data n 0 n).run s'
      | .error e s' => .error e s' := by
  have hw := Part.run_write_full (s := (w, t)) .mput data n hp hfull
  have hz : u64 (((0 : Nat) : Int) + 0) = 0 := rfl
  rw [writeLoop]
  simp only [Prog.run_bind_apply, run_fields, hup, Nat.ne_of_lt h0, if_false, hw, hz, u64_sub_zero hlt, List.drop_zero]
  cases (uploadFull S).run (w, t) <;> rfl

end Loop

/-! ### `write` and `release` -/

theorem run_writeData_nil {data : List Byte} : (writeData S data 0).run (w, t) = .ok () (w, t) := run_writeLoop_done

theorem run_write_reject {off n : Nat} (data : List Byte) (h : w.nextWriteOffset ≠ off) :
    (write S off n data).run (w, t) = .error (.string (sequentialMsg w.filePath w.nextWriteOffset off)) (w, t) := by
  simp [write, Prog.run_bind_apply, h]

/-- `next_write_offset += size` -/
def SequenceWriter.advance (w : SequenceWriter) (n : Nat) : SequenceWriter :=
  { w with nextWriteOffset := w.nextWriteOffset + n }

theorem run_write {off n : Nat} {data : List Byte} (h : w.nextWriteOffset = off) :
    (write S off n data).run (w, t) = match (writeData S data n).run (w, t) with
      | .ok _ s' => .ok (toInt n) (s'.1.advance n, s'.2)
      | .error e s' => .error e s' := by
  simp only [write, Prog.run_bind_apply, run_fields, h, ne_eq, not_true_eq_false, if_false, run_update, Prog.run_pure]
  cases (writeData S data n).run (w, t) <;> rfl

theorem run_release_nothing (h : w.nextWriteOffset = 0) : (release S).run (w, t) = .ok () (w, t) := by
  simp [release, finishWrite, Prog.run_bind_apply, h]

theorem run_release_put {p : Part} (h : w.nextWriteOffset ≠ 0) (hup : w.uptype = .PUT) (hp : w.putPart = some p) :
    (release S).run (w, t) =
      match S.putFile { objKey := w.filePath, buf := some p.buf, size := p.len, metaData := [] } t with
      | .ok _ t' => .ok () (w, t')
      | .error e t' => .error e (w, t') := by
  simp only [release, finishWrite, uploadFile, Prog.run_bind_apply, run_fields, h, if_false, hup, hp, run_call]
  cases S.putFile _ t <;> rfl

theorem run_uploadLast_empty {p : Part} (hp : w.mputPart = some p) (h : p.woff = 0) :
    (uploadLast S).run (w, t) = .ok () (w, t) := by
  simp [uploadLast, Prog.run_bind_apply, hp, Part.len, h]

theorem run_uploadLast {p : Part} (hp : w.mputPart = some p) (h : 0 < p.woff) :
    (uploadLast S).run (w, t) = match S.mput (w.mputReq p) t with
      | .ok _ t' => .ok () (w.nextPart.setPart .mput none, t')
      | .error e t' => .error e (w.nextPart, t') := by
  simp only [uploadLast, Prog.run_bind_apply, run_fields, hp, Part.len, h, if_true,
    run_uploadPart .mput (S := S) (t := t) hp]
  cases S.mput (w.mputReq p) t <;> simp only [run_update]

theorem run_release_mput (h : w.nextWriteOffset ≠ 0) (hup : w.uptype = .MPUT) :
    (release S).run (w, t) = match (uploadLast S).run (w, t) with
      | .ok _ (w', t') =>
        match S.mfinish { objKey := w'.filePath, uploadId := w'.mputCtx.uploadId } t' with
        | .ok _ t'' => .ok () (w', t'')
        | .error e t'' => .error e (w', t'')
      | .error e s' => .error e s' := by
  simp only [release, finishWrite, finishMput, Prog.run_bind_apply, run_fields, h, if_false, hup, run_call]
  cases (uploadLast S).run (w, t) with
  | ok a s' => cases hm : S.mfinish { objKey := s'.1.filePath, uploadId := s'.1.mputCtx.uploadId } s'.2 <;> simp only [hm]
  | error e s' => rfl

end Catfs
