import Catfs.Theorems.WriteEnds
import Catfs.Theorems.WriterBounds

/-! # The room that a write needs

`Part::write` copies all that it is given to a part that is not full, and the constructor of a part does not look at what
`malloc` returns. So a write ends only where the part that its bytes go to was served and has room for all of them
(`write_loops_end_iff`): a copy over the end of the part, or to no buffer at all, is undefined and can kill the process. -/

namespace Catfs

open Lib WriterM SequenceWriter
open EStateM (Result)

variable {σ α β : Type} {S : UploadStor σ} {s : SequenceWriter × σ} {w : SequenceWriter} {t : σ} {serves : Nat → Prop}
  {data : List Byte} {p q : Part} {fuel : Nat}

/-- The step leaves alone the memory that is not its own: a copy goes to a buffer of a size that `malloc` serves and stays
    inside it and inside its source. -/
def WriterAct.InOwnMemory (serves : Nat → Prop) (l : WriterAct) : Prop :=
  match l with
  | .memcpy cap _ _ _ => serves cap ∧ l.InBounds
  | _ => True

/-- So does every step of the run. -/
abbrev HarmlessRun (serves : Nat → Prop) (p : WriterM σ α) (s : SequenceWriter × σ) : Prop :=
  p.Within (WriterAct.InOwnMemory serves) (fun _ => True) s

theorem harmlessRun_iff {p : WriterM σ α} : HarmlessRun serves p s ↔ ∀ l ∈ p.trace s, l.InOwnMemory serves :=
  and_iff_left fun _ _ => trivial

/-! ### The steps -/

@[simp] theorem harmless_pure {a : α} : HarmlessRun serves (pure a : WriterM σ α) s := (Prog.within_pure a).mpr trivial

theorem harmless_bind {p : WriterM σ α} {g : α → WriterM σ β} (hp : HarmlessRun serves p s)
    (hg : ∀ a s', HarmlessRun serves (g a) s') : HarmlessRun serves (p >>= g) s := by
  refine Prog.within_bind.mpr ⟨hp, ?_⟩
  cases p.run s with
  | ok a s' => exact hg a s'
  | error e s' => trivial

theorem harmless_bind_ok {p : WriterM σ α} {g : α → WriterM σ β} {a : α} {s' : SequenceWriter × σ}
    (hp : HarmlessRun serves p s) (h : p.run s = .ok a s') : HarmlessRun serves (p >>= g) s ↔ HarmlessRun serves (g a) s' := by
  rw [HarmlessRun, Prog.within_bind, h]
  exact and_iff_right hp

@[simp] theorem harmless_fields : HarmlessRun serves fields s := by
  simp only [fields, Prog.within_lift]
  exact ⟨trivial, trivial, trivial⟩

@[simp] theorem harmless_update {f : SequenceWriter → SequenceWriter} : HarmlessRun serves (update f) s := by
  simp only [update, Prog.within_lift]
  exact ⟨trivial, trivial, trivial⟩

theorem harmless_openPutPart : HarmlessRun serves openPutPart s := harmless_update

theorem harmless_call {l : WriterAct} (hl : l.IsUpload) {f : EStateM Err σ α} : HarmlessRun serves (call l f) s := by
  simp only [call, Prog.within_lift]
  refine ⟨?_, trivial, trivial⟩
  rcases hl with rfl | rfl <;> trivial

@[simp] theorem harmless_deref {slot : Slot} : HarmlessRun serves (deref slot) s := by
  refine harmless_bind harmless_fields fun w s' => ?_
  cases w.part slot with
  | some p => exact harmless_pure
  | none =>
    refine harmlessRun_iff.mpr fun l hl => ?_
    simp only [Prog.trace_fail] at hl
    cases hl

theorem harmless_uploadPart {slot : Slot} : HarmlessRun serves (uploadPart S slot) s :=
  harmless_bind harmless_fields fun _ _ => harmless_bind harmless_update fun _ _ =>
    harmless_bind harmless_deref fun _ _ => harmless_call (.inr rfl)

theorem harmless_uploadFull : HarmlessRun serves (uploadFull S) s := by
  refine harmless_bind harmless_deref fun p s' => ?_
  split
  · exact harmless_bind harmless_uploadPart fun _ _ => harmless_bind harmless_deref fun _ _ => harmless_update
  · exact harmless_pure

theorem harmless_partWrite (slot : Slot) {n : Nat} (h : s.1.part slot = some p) (hroom : p.woff ≠ p.partSize) :
    HarmlessRun serves (Part.write slot data n) s ↔ serves p.partSize ∧ p.woff + n ≤ p.partSize ∧ n ≤ data.length := by
  rw [Part.write, harmless_bind_ok harmless_deref (run_deref h), if_neg hroom, HarmlessRun, Prog.within_bind, Prog.run_lift,
    Prog.within_lift]
  exact ⟨fun h => h.1.1, fun h => ⟨⟨h, trivial, trivial⟩, harmless_pure⟩⟩

theorem harmless_partWrite_full (slot : Slot) {n : Nat} (h : s.1.part slot = some p) (hfull : p.woff = p.partSize) :
    HarmlessRun serves (Part.write slot data n) s := by
  rw [Part.write, harmless_bind_ok harmless_deref (run_deref h), if_pos hfull]
  exact harmless_pure

/-! ### The switch of modes -/

/-- The copy loop copies the first part at once. -/
theorem harmless_copyLoop (hput : w.putPart = some p) (hmput : w.mputPart = some q) (hroom : q.woff ≠ q.partSize)
    (hleft : q.woff + p.woff ≠ q.partSize) (h0 : 0 < p.woff) (hlt : p.woff < 2 ^ 31) :
    HarmlessRun serves (copyLoop S (fuel + 1) 0 p.len) (w, t) ↔
      serves q.partSize ∧ q.woff + p.woff ≤ q.partSize ∧ p.woff ≤ p.buf.length := by
  have hsub : u64 ((p.len : Int) - ((0 : Nat) : Int)) = p.woff := u64_sub_zero hlt
  have hd : (deref .put : WriterM σ _).run (w, t) = .ok p (w, t) := run_deref hput
  have hw := Part.run_write (s := (w, t)) .mput p.buf p.woff hmput hroom
  have hn : u64 (toInt p.woff) = p.woff := by
    rw [toInt_of_lt hlt]
    exact u64_natCast (by omega)
  have hfull := run_uploadFull_not (S := S) (t := t) (w := w.setPart .mput (some (q.append p.buf p.woff)))
    (p := q.append p.buf p.woff) rfl hleft
  have hend : u64 (((0 : Nat) : Int) + ((p.woff : Nat) : Int)) = p.woff := by
    unfold u64
    omega
  have hrest : HarmlessRun serves (do uploadFull S; copyLoop S fuel p.woff p.woff)
      (w.setPart .mput (some (q.append p.buf p.woff)), t) := by
    rw [harmless_bind_ok harmless_uploadFull hfull]
    unfold copyLoop
    rw [if_neg (Nat.lt_irrefl _)]
    exact harmless_pure
  have hcopied : (Part.copy .mput .put 0 p.woff : WriterM σ _).run (w, t) =
      .ok p.woff (w.setPart .mput (some (q.append p.buf p.woff)), t) := by
    simp only [Part.copy, Prog.run_bind_apply, hd, List.drop_zero, hw, Prog.run_pure, hn]
  have hcopy : HarmlessRun serves (Part.copy .mput .put 0 p.woff : WriterM σ _) (w, t) ↔
      serves q.partSize ∧ q.woff + p.woff ≤ q.partSize ∧ p.woff ≤ p.buf.length := by
    rw [Part.copy, harmless_bind_ok harmless_deref hd, List.drop_zero]
    refine Iff.trans ?_ (harmless_partWrite (s := (w, t)) .mput hmput hroom)
    rw [HarmlessRun, Prog.within_bind, hw]
    exact and_iff_left harmless_pure
  rw [copyLoop, if_pos (show 0 < p.len from h0), hsub, HarmlessRun, Prog.within_bind, hcopied]
  simp only [hend]
  exact (and_iff_left hrest).trans hcopy

/-- A switch that sends the first part as it is copies nothing; one that copies it needs a part that holds it. -/
theorem harmless_switchMputMode (hput : w.putPart = some p) (hwoff : p.woff = MB_8)
    (hS : ∀ r t', S.minit { objKey := w.filePath } t = .ok r t' → 1 ≤ r.partSize ∧ r.partSize < 2 ^ 64)
    (hheld : ∀ r t', S.minit { objKey := w.filePath } t = .ok r t' → r.partSize ≠ MB_8 → p.woff ≤ p.buf.length) :
    HarmlessRun serves (switchMputMode S) (w, t) ↔
      ∀ r t', S.minit { objKey := w.filePath } t = .ok r t' → r.partSize ≠ MB_8 → serves r.partSize ∧ MB_8 ≤ r.partSize := by
  have hcall : HarmlessRun serves (call .minit (S.minit { objKey := w.filePath })) (w, t) := harmless_call (.inl rfl)
  rw [switchMputMode, harmless_bind_ok harmless_fields run_fields]
  cases hr : S.minit { objKey := w.filePath } t with
  | error e t' =>
    refine iff_of_true (Prog.within_bind.mpr ⟨hcall, ?_⟩) fun _ _ h => by cases h
    simp only [run_call, hr]
  | ok r t' =>
    obtain ⟨hpos, hlt⟩ := hS r t' hr
    have hm : (deref .mput : WriterM σ _).run (w.beginMput r, t') = .ok (Part.new r.partSize) (w.beginMput r, t') :=
      run_deref rfl
    have hp : (deref .put : WriterM σ _).run (w.beginMput r, t') = .ok p (w.beginMput r, t') := run_deref hput
    have hinit : (call .minit (S.minit { objKey := w.filePath })).run (w, t) = .ok r (w, t') := by
      simp only [run_call, hr]
    rw [harmless_bind_ok hcall hinit, harmless_bind_ok harmless_update (run_update _),
      harmless_bind_ok harmless_update (run_update _), harmless_bind_ok harmless_update (run_update _),
      harmless_bind_ok harmless_update (run_update _)]
    refine (harmless_bind_ok harmless_deref hm).trans ((harmless_bind_ok harmless_deref hp).trans ?_)
    by_cases hsize : r.partSize = MB_8
    · have hcap : (Part.new r.partSize).cap = p.len := (Part.cap_new hlt).trans (hsize.trans hwoff.symm)
      rw [if_pos hcap]
      refine iff_of_true (harmless_bind harmless_uploadPart fun _ _ => harmless_update) fun r' t'' h hne => ?_
      obtain ⟨rfl, -⟩ := Result.ok.inj h
      exact absurd hsize hne
    · have hcap : (Part.new r.partSize).cap ≠ p.len := fun h => hsize ((Part.cap_new hlt).symm.trans (h.trans hwoff))
      have hroom : (Part.new r.partSize).woff ≠ (Part.new r.partSize).partSize := Nat.ne_of_lt hpos
      have hleft : (Part.new r.partSize).woff + p.woff ≠ (Part.new r.partSize).partSize := by
        rw [hwoff]
        exact fun h => hsize ((Nat.zero_add _).symm.trans h).symm
      have h0 : 0 < p.woff := hwoff ▸ MB_8_pos
      have h31 : p.woff < 2 ^ 31 := hwoff ▸ MB_8_lt
      have hloop : HarmlessRun serves (copyLoop S (p.len + 1) 0 p.len) (w.beginMput r, t') ↔
          serves r.partSize ∧ 0 + p.woff ≤ r.partSize ∧ p.woff ≤ p.buf.length :=
        harmless_copyLoop (w := w.beginMput r) (q := Part.new r.partSize) hput rfl hroom hleft h0 h31
      rw [if_neg hcap, HarmlessRun, Prog.within_bind]
      refine (and_iff_left ?_).trans (hloop.trans ?_)
      · cases (copyLoop S (p.len + 1) 0 p.len).run (w.beginMput r, t') with
        | ok a s' => exact harmless_update
        | error e s' => trivial
      · rw [Nat.zero_add, hwoff]
        refine ⟨fun h r' t'' hr' _ => ?_, fun h => ?_⟩
        · obtain ⟨rfl, -⟩ := Result.ok.inj hr'
          exact ⟨h.1, h.2.1⟩
        · obtain ⟨hserves, hle⟩ := h r t' rfl hsize
          exact ⟨hserves, hle, hwoff ▸ hheld r t' hr hsize⟩

/-! ### The loop of `write_data` -/

section
variable {n : Nat}

theorem harmless_writeLoop_put_room (hup : w.uptype = .PUT) (hp : w.putOrNew = p) (hroom : p.woff ≠ p.partSize) (h0 : 0 < n)
    (hlt : n < 2 ^ 31) : HarmlessRun serves (writeLoop S (fuel + 1) data n 0 n) (w, t) ↔
      serves p.partSize ∧ p.woff + n ≤ p.partSize ∧ n ≤ data.length := by
  have hw := Part.run_write (s := (w.setPart .put (some p), t)) .put data n rfl hroom
  have hd : (deref .put : WriterM σ _).run (w.setPart .put (some (p.append data n)), t) = .ok (p.append data n) _ :=
    run_deref rfl
  have hopen : (openPutPart : WriterM σ _).run (w, t) = .ok () (w.setPart .put (some p), t) := by
    rw [putOrNew] at hp
    rw [openPutPart, run_update, hp]
  rw [writeLoop, if_neg (Nat.ne_of_lt h0)]
  dsimp only
  rw [harmless_bind_ok harmless_fields run_fields, hup]
  dsimp only
  rw [harmless_bind_ok harmless_openPutPart hopen, HarmlessRun, Prog.within_bind, hw]
  refine (and_iff_left ?_).trans (harmless_partWrite (s := (w.setPart .put (some p), t)) .put rfl hroom)
  -- Everything was written, so the loop is left.
  simp only [u64_wrote hlt, u64_sub_self, Nat.lt_irrefl, if_false, if_true]
  refine harmless_bind harmless_deref fun p' s' => ?_
  split <;> exact harmless_pure

theorem harmless_writeLoop_put_full (hup : w.uptype = .PUT) (hp : w.putPart = some p) (hfull : p.woff = p.partSize)
    (h0 : 0 < n) (hlt : n < 2 ^ 31) : HarmlessRun serves (writeLoop S (fuel + 1) data n 0 n) (w, t) ↔
      HarmlessRun serves (switchMputMode S) (w, t) ∧ match (switchMputMode S).run (w, t) with
        | .ok _ s' => HarmlessRun serves (writeLoop S fuel data n 0 n) s'
        | .error _ _ => True := by
  have hset : w.setPart .put (some p) = w := by rw [← hp]; rfl
  have hopen : (openPutPart : WriterM σ _).run (w, t) = .ok () (w, t) := by
    rw [openPutPart, run_update, hp, Option.getD_some, hset]
  have hw := Part.run_write_full (s := (w, t)) .put data n hp hfull
  have hd : (deref .put : WriterM σ _).run (w, t) = .ok p _ := run_deref hp
  have hf : p.full = true := by simp [Part.full, hfull]
  have hz : u64 (((0 : Nat) : Int) + 0) = 0 := rfl
  rw [writeLoop, if_neg (Nat.ne_of_lt h0)]
  dsimp only
  rw [harmless_bind_ok harmless_fields run_fields, hup]
  dsimp only
  rw [harmless_bind_ok harmless_openPutPart hopen,
    harmless_bind_ok (harmless_partWrite_full (s := (w, t)) .put hp hfull) hw, harmless_bind_ok harmless_deref hd, if_pos hf, hz,
    u64_sub_zero hlt, if_pos h0, HarmlessRun, Prog.within_bind, List.drop_zero]
  cases (switchMputMode S).run (w, t) <;> exact Iff.rfl

theorem harmless_writeLoop_mput_room (hup : w.uptype = .MPUT) (hp : w.mputPart = some p) (hroom : p.woff ≠ p.partSize)
    (h0 : 0 < n) (hlt : n < 2 ^ 31) : HarmlessRun serves (writeLoop S (fuel + 1) data n 0 n) (w, t) ↔
      serves p.partSize ∧ p.woff + n ≤ p.partSize ∧ n ≤ data.length := by
  have hw := Part.run_write (s := (w, t)) .mput data n hp hroom
  rw [writeLoop, if_neg (Nat.ne_of_lt h0)]
  dsimp only
  rw [harmless_bind_ok harmless_fields run_fields, hup]
  dsimp only
  rw [HarmlessRun, Prog.within_bind, hw]
  refine (and_iff_left ?_).trans (harmless_partWrite (s := (w, t)) .mput hp hroom)
  dsimp only
  rw [u64_wrote hlt]
  refine harmless_bind harmless_uploadFull fun _ s' => ?_
  unfold writeLoop
  rw [if_pos rfl]
  exact harmless_pure

theorem harmless_writeLoop_mput_full (hup : w.uptype = .MPUT) (hp : w.mputPart = some p) (hfull : p.woff = p.partSize)
    (h0 : 0 < n) (hlt : n < 2 ^ 31) : HarmlessRun serves (writeLoop S (fuel + 1) data n 0 n) (w, t) ↔
      match (uploadFull S).run (w, t) with
      | .ok _ s' => HarmlessRun serves (writeLoop S fuel data n 0 n) s'
      | .error _ _ => True := by
  have hw := Part.run_write_full (s := (w, t)) .mput data n hp hfull
  have hz : u64 (((0 : Nat) : Int) + 0) = 0 := rfl
  rw [writeLoop, if_neg (Nat.ne_of_lt h0)]
  dsimp only
  rw [harmless_bind_ok harmless_fields run_fields, hup]
  dsimp only
  rw [harmless_bind_ok (harmless_partWrite_full (s := (w, t)) .mput hp hfull) hw, hz, u64_sub_zero hlt, HarmlessRun,
    Prog.within_bind, List.drop_zero]
  refine (and_iff_right harmless_uploadFull).trans ?_
  cases (uploadFull S).run (w, t) <;> exact Iff.rfl

end

/-! ### The part that the bytes go to -/

/-- The part that the bytes of the next write go to, as it is by then: a full one gives way, unless the store refuses a
    call. -/
def SequenceWriter.receiver (S : UploadStor σ) (w : SequenceWriter) (t : σ) : Option Part :=
  match w.uptype with
  | .PUT =>
    if w.putOrNew.full then
      match S.minit { objKey := w.filePath } t with
      | .error _ _ => none
      | .ok r t' =>
        if r.partSize = MB_8 then
          match S.mput ((w.beginMput r).mputReq w.putOrNew) t' with
          | .ok _ _ => some (Part.new r.partSize)
          | .error _ _ => none
        else some ((Part.new r.partSize).append w.putOrNew.buf w.putOrNew.woff)
    else some w.putOrNew
  | .MPUT =>
    match w.mputPart with
    | none => none
    | some p =>
      if p.full then
        match S.mput (w.mputReq p) t with
        | .ok _ _ => some p.clear
        | .error _ _ => none
      else some p

/-- The write of `n` bytes finds room: it has none to write or the store refuses them, or `malloc` served the part that
    they go to and they end inside it. -/
def Room (S : UploadStor σ) (serves : Nat → Prop) (n : Nat) (s : SequenceWriter × σ) : Prop :=
  n = 0 ∨ ∀ p, s.1.receiver S s.2 = some p → serves p.partSize ∧ p.woff + n ≤ p.partSize

/-- What the state and the store bring to a write: a part that the upload copies to has bytes, and the first part what it
    counts. -/
structure Stages (S : UploadStor σ) (s : SequenceWriter × σ) : Prop where
  put : s.1.uptype = .PUT → s.1.putOrNew.partSize = MB_8
  mput : ∀ p, s.1.uptype = .MPUT → s.1.mputPart = some p → 1 ≤ p.partSize
  minit : ∀ r t', S.minit { objKey := s.1.filePath } s.2 = .ok r t' → 1 ≤ r.partSize ∧ r.partSize < 2 ^ 64
  held : ∀ r t', s.1.uptype = .PUT → S.minit { objKey := s.1.filePath } s.2 = .ok r t' → r.partSize ≠ MB_8 →
    s.1.putOrNew.woff ≤ s.1.putOrNew.buf.length

theorem harmless_mput (fuel : Nat) (hup : w.uptype = .MPUT) (hpos : ∀ p, w.mputPart = some p → 1 ≤ p.partSize)
    (h0 : 0 < data.length) (hlt : data.length < 2 ^ 31) : HarmlessRun serves (writeLoop S (fuel + 2) data data.length 0 data.length) (w, t) ↔
      ∀ p, w.receiver S t = some p → serves p.partSize ∧ p.woff + data.length ≤ p.partSize := by
  cases hp : w.mputPart with
  | none =>
    have hreceiver : w.receiver S t = none := by simp only [receiver, hup, hp]
    rw [hreceiver]
    refine iff_of_true ?_ fun _ h => by cases h
    have hderef : (deref .mput : WriterM σ _).run (w, t) = .error .nullDeref (w, t) := run_deref_none hp
    have hnone : HarmlessRun serves (Part.write .mput data data.length : WriterM σ _) (w, t) := by
      refine Prog.within_bind.mpr ⟨harmless_deref, ?_⟩
      rw [hderef]
      trivial
    have hrun : (Part.write .mput data data.length : WriterM σ _).run (w, t) = .error .nullDeref (w, t) := by
      rw [Part.write, Prog.run_bind_apply, hderef]
    rw [writeLoop, if_neg (Nat.ne_of_lt h0)]
    dsimp only
    rw [harmless_bind_ok harmless_fields run_fields, hup]
    refine Prog.within_bind.mpr ⟨hnone, ?_⟩
    rw [hrun]
    trivial
  | some p =>
    by_cases hfull : p.woff = p.partSize
    · have hpfull : p.full = true := by simp only [Part.full, hfull, beq_self_eq_true]
      rw [harmless_writeLoop_mput_full hup hp hfull h0 hlt, run_uploadFull hp hfull]
      simp only [receiver, hup, hp, hpfull, if_true]
      cases S.mput (w.mputReq p) t with
      | error e t' => exact iff_of_true trivial fun _ h => by cases h
      | ok a t' =>
        have hne : p.clear.woff ≠ p.clear.partSize := Nat.ne_of_lt (hpos p hp)
        have hleft : (w.nextPart.setPart .mput (some p.clear)).mputPart = some p.clear := rfl
        have hup' : (w.nextPart.setPart .mput (some p.clear)).uptype = .MPUT := hup
        refine (harmless_writeLoop_mput_room hup' hleft hne h0 hlt).trans ?_
        simp only [Nat.le_refl, and_true, Option.some.injEq, forall_eq']
    · have hpfull : p.full = false := beq_false_of_ne (Ne.symm hfull)
      rw [harmless_writeLoop_mput_room hup hp hfull h0 hlt]
      simp only [receiver, hup, hp, hpfull, Bool.false_eq_true, if_false, Nat.le_refl, and_true, Option.some.injEq, forall_eq']

theorem harmless_put (h : Stages S (w, t)) (hup : w.uptype = .PUT) (h0 : 0 < data.length) (hlt : data.length < 2 ^ 31) :
    HarmlessRun serves (writeLoop S (fuel + 3) data data.length 0 data.length) (w, t) ↔
      ∀ p, w.receiver S t = some p → serves p.partSize ∧ p.woff + data.length ≤ p.partSize := by
  have hsize : w.putOrNew.partSize = MB_8 := h.put hup
  by_cases hfull : w.putOrNew.woff = w.putOrNew.partSize
  · have hput := putPart_of_full hfull
    have hpfull : w.putOrNew.full = true := by simp only [Part.full, hfull, beq_self_eq_true]
    have hwoff : w.putOrNew.woff = MB_8 := hfull.trans hsize
    rw [harmless_writeLoop_put_full hup hput hfull h0 hlt,
      harmless_switchMputMode hput hwoff h.minit fun r t' hr => h.held r t' hup hr]
    cases hr : S.minit { objKey := w.filePath } t with
    | error e t' =>
      rw [run_switchMputMode_error hr]
      simp only [receiver, hup, hpfull, hr, if_true]
      exact iff_of_true ⟨fun _ _ h => (by cases h), trivial⟩ fun _ h => by cases h
    | ok r t' =>
      obtain ⟨hpos, hlt'⟩ := h.minit r t' hr
      by_cases heq : r.partSize = MB_8
      · -- The first part was sent, and the bytes go to an empty one.
        rw [run_switchMputMode_upload hput hr hlt' (heq.trans hwoff.symm)]
        simp only [receiver, hup, hpfull, hr, heq, if_true]
        refine (and_iff_right ?_).trans ?_
        · rintro r' t'' h' hne
          obtain ⟨rfl, -⟩ := Result.ok.inj h'
          exact absurd heq hne
        · cases S.mput ((w.beginMput r).mputReq w.putOrNew) t' with
          | error e t'' => exact iff_of_true trivial fun _ h => by cases h
          | ok a t'' =>
            have hroom : (Part.new r.partSize).woff ≠ (Part.new r.partSize).partSize := Nat.ne_of_lt hpos
            have hnew : ((w.beginMput r).nextPart.setPart .put none).mputPart = some (Part.new r.partSize) := rfl
            refine (harmless_writeLoop_mput_room rfl hnew hroom h0 hlt).trans ?_
            rw [heq]
            simp only [Nat.le_refl, and_true, Option.some.injEq, forall_eq']
      · -- The first part was copied, and the bytes go behind it.
        have hpos' : 0 < w.putOrNew.woff := hwoff ▸ MB_8_pos
        have hlt'' : w.putOrNew.woff < 2 ^ 31 := hwoff ▸ MB_8_lt
        rw [run_switchMputMode_copy hput hr hlt' hpos (fun h => heq (h.trans hwoff)) hpos' hlt'']
        simp only [receiver, hup, hpfull, hr, heq, if_true, if_false, Option.some.injEq, forall_eq']
        have hroom : ((Part.new r.partSize).append w.putOrNew.buf w.putOrNew.woff).woff ≠
            ((Part.new r.partSize).append w.putOrNew.buf w.putOrNew.woff).partSize := by
          rw [hwoff]
          exact fun h => heq ((Nat.zero_add _).symm.trans h).symm
        have hcopied : (((w.beginMput r).setPart .mput
            (some ((Part.new r.partSize).append w.putOrNew.buf w.putOrNew.woff))).setPart .put none).mputPart =
            some ((Part.new r.partSize).append w.putOrNew.buf w.putOrNew.woff) := rfl
        refine (and_congr_right fun _ => harmless_writeLoop_mput_room rfl hcopied hroom h0 hlt).trans ?_
        simp only [Nat.le_refl, and_true]
        refine and_iff_right_of_imp fun hfits r' t'' h' _ => ?_
        obtain ⟨rfl, -⟩ := Result.ok.inj h'
        have hend : 0 + w.putOrNew.woff + data.length ≤ r.partSize := hfits.2
        exact ⟨hfits.1, by omega⟩
  · have hpfull : w.putOrNew.full = false := beq_false_of_ne (Ne.symm hfull)
    rw [harmless_writeLoop_put_room hup rfl hfull h0 hlt]
    simp only [receiver, hup, hpfull, Bool.false_eq_true, if_false, Nat.le_refl, and_true, Option.some.injEq, forall_eq']

/-- A write harms no other memory exactly when it finds room. -/
theorem harmless_writeData (h : Stages S (w, t)) (hlt : data.length < 2 ^ 31) :
    HarmlessRun serves (writeData S data data.length) (w, t) ↔ Room S serves data.length (w, t) := by
  obtain h0 | h0 := Nat.eq_zero_or_pos data.length
  · rw [writeData, h0]
    refine iff_of_true ?_ (.inl rfl)
    unfold writeLoop
    rw [if_pos rfl]
    exact harmless_pure
  · have hroom : Room S serves data.length (w, t) ↔
        ∀ p, w.receiver S t = some p → serves p.partSize ∧ p.woff + data.length ≤ p.partSize :=
      or_iff_right (Nat.ne_of_gt h0)
    rw [hroom, writeData]
    cases hup : w.uptype with
    | PUT => exact harmless_put h hup h0 hlt
    | MPUT => exact harmless_mput (data.length + 1) hup (fun p hp => h.mput p hup hp) h0 hlt

/-! ### Runs of writes -/

theorem Written.stages (hS : S.PartsOfBytes) (h : Written S s) : Stages S s := by
  have hw := h.usable hS
  refine ⟨hw.put, fun p hup hp => ?_, fun r t' hr => hS _ _ _ _ hr, fun _ _ hup _ _ => hw.held hup⟩
  obtain ⟨q, hq, hpos⟩ := hw.mput hup
  rw [hp, Option.some.injEq] at hq
  exact hq ▸ hpos

/-- From every state that writes left, the loops of the next one end without harm to other memory exactly when the write
    finds room. -/
theorem write_loops_end_iff (hS : S.PartsOfBytes) (h : Written S s) (hlt : data.length < 2 ^ 31) :
    (LoopsEnd S data s ∧ ∀ l ∈ (writeData S data data.length).trace s, l.InOwnMemory serves) ↔ Room S serves data.length s := by
  rw [← harmlessRun_iff, and_iff_right (loopsEnd hS h hlt)]
  exact harmless_writeData (h.stages hS) hlt

/-- `n` bytes. -/
@[irreducible] def zeros (n : Nat) : List Byte := List.replicate n 0

theorem length_zeros {n : Nat} : (zeros n).length = n := by
  rw [zeros, List.length_replicate]

/-- The writer after a first write of `n` bytes. -/
def filled (n : Nat) : SequenceWriter :=
  { SequenceWriter.new ['a'] with putPart := some ((Part.new MB_8).append (zeros n) n), nextWriteOffset := n }

theorem written_filled {n : Nat} (h0 : 0 < n) (hle : n ≤ MB_8) : Written S (filled n, t) := by
  have hroom : (Part.new MB_8).woff ≠ (Part.new MB_8).partSize := Nat.ne_of_lt MB_8_pos
  have hlt : n < 2 ^ 31 := Nat.lt_of_le_of_lt hle MB_8_lt
  have hoff : (SequenceWriter.new ['a']).nextWriteOffset = 0 := rfl
  have hrun : (writeData S (zeros n) n).run (.new ['a'], t) =
      .ok () ((SequenceWriter.new ['a']).setPart .put (some ((Part.new MB_8).append (zeros n) n)), t) :=
    run_writeLoop_put_room rfl rfl hroom h0 hlt
  have hwrite := (Written.new (S := S) ['a'] t).write 0 (zeros n) (length_zeros.symm ▸ hlt)
  rw [length_zeros, run_write hoff, hrun] at hwrite
  have hstate : ((SequenceWriter.new ['a']).setPart .put (some ((Part.new MB_8).append (zeros n) n))).advance n = filled n := by
    simp only [filled, advance, setPart, SequenceWriter.new, Nat.zero_add]
  exact hstate ▸ hwrite

/-- After a write that fills the first part, and one for which the call that begins the upload fails. -/
def initFailed : SequenceWriter × Log := (filled MB_8, [(.minit ['a'] ((Policy.s3 (· == 0)).uploadId 0), false)])

theorem full_filled : (filled MB_8).putOrNew.full = true := beq_iff_eq.mpr (Nat.zero_add MB_8).symm

theorem written_initFailed : Written (Policy.s3 (· == 0)).stor initFailed := by
  have hswitch : (switchMputMode (Policy.s3 (· == 0)).stor).run (filled MB_8, []) = _ :=
    run_switchMputMode_error (stor_minit_error rfl)
  have hoff : (filled MB_8).nextWriteOffset = MB_8 := rfl
  have hwoff : (filled MB_8).putOrNew.woff = (filled MB_8).putOrNew.partSize := Nat.zero_add _
  have hwrite := (written_filled (S := (Policy.s3 (· == 0)).stor) (t := []) MB_8_pos (Nat.le_refl _)).write MB_8 [1] (by decide)
  rwa [run_write hoff, writeData, run_writeLoop_put_full rfl (putPart_of_full hwoff) hwoff (by decide) (by decide),
    hswitch] at hwrite

/-- The store takes the first part, and the bytes go to the part after it. -/
theorem receiver_initFailed : initFailed.1.receiver (Policy.s3 (· == 0)).stor initFailed.2 = some (Part.new MB_8) := by
  have hup : initFailed.1.uptype = .PUT := rfl
  have hinit : (Policy.s3 (· == 0)).stor.minit { objKey := initFailed.1.filePath } initFailed.2 = _ := stor_minit_ok rfl
  have hsize : (Policy.s3 (· == 0)).partSize initFailed.2.length = MB_8 := rfl
  simp only [receiver, hup, show initFailed.1.putOrNew.full = true from full_filled, hinit, hsize, if_true]
  rw [stor_mput_ok rfl]

/-- The write after that one begins the upload and ends. -/
theorem write_loops_end_initFailed :
    LoopsEnd (Policy.s3 (· == 0)).stor [1] initFailed ∧
      ∀ l ∈ (writeData (Policy.s3 (· == 0)).stor [1] [1].length).trace initFailed, l.InOwnMemory (· ≤ MB_8) := by
  refine (write_loops_end_iff (partsOfBytes _) written_initFailed (by decide)).mpr (.inr fun p hp => ?_)
  rw [receiver_initFailed, Option.some.injEq] at hp
  subst hp
  exact ⟨Nat.le_refl MB_8, (by decide : 0 + 1 ≤ MB_8)⟩

/-- After one byte less than 8 MiB, the second of two bytes goes behind the buffer, though `malloc` serves every size. -/
theorem write_behind_part : ∃ s, Written (Policy.s3 fun _ => false).stor s ∧
    ¬ (LoopsEnd (Policy.s3 fun _ => false).stor [1, 2] s ∧
      ∀ l ∈ (writeData (Policy.s3 fun _ => false).stor [1, 2] [1, 2].length).trace s, l.InOwnMemory fun _ => True) := by
  have hwritten : Written (Policy.s3 fun _ => false).stor (filled (MB_8 - 1), []) := written_filled (by decide) (Nat.sub_le ..)
  refine ⟨_, hwritten, fun h => ?_⟩
  have hroom := (harmless_writeData (hwritten.stages (partsOfBytes _)) (by decide)).mp (harmlessRun_iff.mpr h.2)
  have hreceiver : (filled (MB_8 - 1)).receiver (Policy.s3 fun _ => false).stor [] = some (filled (MB_8 - 1)).putOrNew := by
    have hroomy : (filled (MB_8 - 1)).putOrNew.full = false := beq_false_of_ne (by decide : MB_8 ≠ 0 + (MB_8 - 1))
    have hup : (filled (MB_8 - 1)).uptype = .PUT := rfl
    simp only [receiver, hup, hroomy, Bool.false_eq_true, if_false]
  rcases hroom with h0 | hroom
  · cases h0
  · exact absurd (hroom _ hreceiver).2 (by decide : ¬ 0 + (MB_8 - 1) + 2 ≤ MB_8)

end Catfs
