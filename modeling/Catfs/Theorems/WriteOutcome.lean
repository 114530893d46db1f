import Catfs.Theorems.WriterStaged

/-! # Every write ends in one of three ways

`write_outcome`: from a handle that holds `acc`, a sequential write is accepted, stopped by a `minit` that
changed nothing, or stopped by an `mput`. The switch of modes and the upload of a full part are shown
first, each as an `Outcome` of its own. -/

namespace Catfs

open Lib SequenceWriter
open EStateM (Result)

variable {P : Policy} {w w' w'' : SequenceWriter} {log log' log'' : Log} {acc data : List Byte}

/-! ### The store's answers -/

theorem stor_minit_ok {key : Str} (h : P.fails log.length = false) :
    P.stor.minit { objKey := key } log =
      .ok { partSize := P.partSize log.length, uploadId := P.uploadId log.length }
        (log ++ [(.minit key (P.uploadId log.length), true)]) := by
  simp [Policy.stor, Policy.answer, h]

theorem stor_minit_error {key : Str} (h : P.fails log.length = true) :
    P.stor.minit { objKey := key } log = .error (.serverError []) (log ++ [(.minit key (P.uploadId log.length), false)]) := by
  simp [Policy.stor, Policy.answer, h]

/-- The call by which `upload_part` sends the part `p`. -/
def SequenceWriter.mputCall (w : SequenceWriter) (p : Part) : StorCall :=
  .mput w.filePath w.mputCtx.uploadId w.mputCtx.partNum p.content

theorem stor_mput_ok {p : Part} (h : P.fails log.length = false) :
    P.stor.mput (w.mputReq p) log = .ok () (log ++ [(w.mputCall p, true)]) := by
  simp [Policy.stor, Policy.answer, h, mputReq, mputCall, Part.content, Part.len]

theorem stor_mput_error {p : Part} (h : P.fails log.length = true) :
    P.stor.mput (w.mputReq p) log = .error (.serverError []) (log ++ [(w.mputCall p, false)]) := by
  simp [Policy.stor, Policy.answer, h, mputReq, mputCall, Part.content, Part.len]

theorem mputFailed_append {p : Part} : Log.mputFailed (log ++ [(w.mputCall p, false)]) :=
  ⟨w.filePath, w.mputCtx.uploadId, w.mputCtx.partNum, p.content, by simp [mputCall]⟩

theorem parts_mputCall {p : Part} : Log.parts (log ++ [(w.mputCall p, true)]) w.mputCtx.uploadId =
    log.parts w.mputCtx.uploadId ++ [(w.mputCtx.partNum, p.content)] := by
  rw [Log.parts_append]
  simp [Log.parts, mputCall]

theorem parts_mputCall_failed {p : Part} {id : Str} :
    Log.parts (log ++ [(w.mputCall p, false)]) id = log.parts id := by
  rw [Log.parts_append]
  simp [Log.parts, mputCall]

theorem parts_minit {key id id' : Str} {b : Bool} : Log.parts (log ++ [(.minit key id', b)]) id = log.parts id := by
  rw [Log.parts_append]
  simp [Log.parts]

namespace Issued

theorem minit {key : Str} {id : Str} {b : Bool} (h : Issued P log) : Issued P (log ++ [(.minit key id, b)]) := by
  intro key' id' n body b' hm
  rcases List.mem_append.mp hm with hm | hm
  · obtain ⟨k, hk, rfl⟩ := h _ _ _ _ _ hm
    exact ⟨k, by simp; omega, rfl⟩
  · simp at hm

theorem mput {p : Part} {b : Bool} (h : Issued P log) (hid : ∃ k < log.length, w.mputCtx.uploadId = P.uploadId k) :
    Issued P (log ++ [(w.mputCall p, b)]) := by
  intro key' id' n body b' hm
  rcases List.mem_append.mp hm with hm | hm
  · obtain ⟨k, hk, rfl⟩ := h _ _ _ _ _ hm
    exact ⟨k, by simp; omega, rfl⟩
  · simp only [List.mem_singleton, Prod.mk.injEq, mputCall, StorCall.mput.injEq] at hm
    obtain ⟨k, hk, hk'⟩ := hid
    exact ⟨k, by simp; omega, hm.1.2.1.trans hk'⟩

end Issued

/-! ### Composing outcomes -/

theorem Sends.refl (h : w'.filePath = w.filePath) (hup : w'.uptype = w.uptype)
    (hid : w'.mputCtx.uploadId = w.mputCtx.uploadId) : Sends P w log w' log :=
  ⟨h, ⟨[], by simp⟩, .inl ⟨hup, hid⟩⟩

/-- One more call for an upload that the handle already has. -/
theorem Sends.call {c : StorCall} (hup : w.uptype = .MPUT) (hup' : w'.uptype = .MPUT) (hpath : w'.filePath = w.filePath)
    (hid : w'.mputCtx.uploadId = w.mputCtx.uploadId) (hc : c.OfUpload w.filePath w.mputCtx.uploadId) :
    Sends P w log w' (log ++ [(c, true)]) := by
  refine ⟨hpath, ⟨_, rfl, ?_, fun h => by simp [hup'] at h⟩, .inl ⟨hup'.trans hup.symm, hid⟩⟩
  intro c' hc'
  rw [List.mem_singleton] at hc'
  subst hc'
  exact ⟨hid ▸ hc, rfl⟩

theorem Sends.trans (h : Sends P w log w' log') (h' : Sends P w' log' w'' log'') : Sends P w log w'' log'' := by
  obtain ⟨new, rfl, hnew, hput⟩ := h.grows
  obtain ⟨new', rfl, hnew', hput'⟩ := h'.grows
  refine ⟨h'.path.trans h.path, ⟨new ++ new', List.append_assoc .., ?_, ?_⟩, ?_⟩
  · intro c hc
    rcases List.mem_append.mp hc with hc | hc
    · -- What was sent before the last step was sent for the same upload, if anything was.
      rcases h'.mode with ⟨-, hid⟩ | ⟨hup, -, -⟩
      · exact hid ▸ hnew c hc
      · rw [hput hup] at hc
        cases hc
    · exact h.path ▸ hnew' c hc
  · intro hup
    rcases h'.mode with ⟨he, -⟩ | ⟨-, he, -⟩
    · rw [hput (he ▸ hup), hput' hup, List.append_nil]
    · rw [he] at hup
      cases hup
  · rcases h.mode with ⟨hup, hid⟩ | ⟨hup, hup', k, hk, hk', hid⟩
    · rcases h'.mode with ⟨hup₁, hid₁⟩ | ⟨hup₁, hup₂, k, hk, hk', hid₁⟩
      · exact .inl ⟨hup₁.trans hup, hid₁.trans hid⟩
      · exact .inr ⟨hup ▸ hup₁, hup₂, k, by simp at hk; omega, hk', hid₁⟩
    · rcases h'.mode with ⟨hup₁, hid₁⟩ | ⟨hup₁, -, -⟩
      · exact .inr ⟨hup, hup₁.trans hup', k, hk, by simp at hk' ⊢; omega, hid₁.trans hid⟩
      · rw [hup'] at hup₁
        cases hup₁

/-! ### Staging in a part of an upload -/

/-- Data staged in the part of an upload: the part is sent when this fills it exactly. -/
theorem uploadFull_outcome {p : Part} (hstaged : Staged P w log acc) (hup : w.uptype = .MPUT) (hp : w.mputPart = some p)
    (hI : Issued P log) (hdata : data ≠ []) :
    Outcome P w log acc data w.nextWriteOffset
      ((uploadFull P.stor).run (w.setPart .mput (some (p.append data data.length)), log)) := by
  cases hstaged with
  | put hup' => rw [hup] at hup'; cases hup'
  | mput _ hbig hid hnum hp' hwf hroom hpos hacc =>
    cases hp.symm.trans hp'
    let q := p.append data data.length
    have hcontent : q.content = p.content ++ data := Part.content_append hwf
    have hbig' : MB_8 ≤ (acc ++ data).length := by
      rw [List.length_append]
      omega
    by_cases hfull : q.woff = q.partSize
    · rw [run_uploadFull (p := q) rfl hfull]
      cases hf : P.fails log.length with
      | true =>
        rw [stor_mput_error hf]
        refine .mputFailed mputFailed_append ?_ ⟨_, hf⟩
        -- The data stays staged behind what was pending.
        have hpend : pending (w.setPart .mput (some q)).nextPart
            (log ++ [((w.setPart .mput (some q)).mputCall q, false)]) = acc ++ data := by
          simp only [pending, nextPart, setPart, hup, Option.map_some, Option.getD_some, hcontent]
          rw [Log.joined_of_range (n := w.mputCtx.partNum), parts_mputCall_failed, ← List.append_assoc, hacc]
          rw [parts_mputCall_failed, hnum]
        rw [hpend]
        simpa using hdata
      | false =>
        rw [stor_mput_ok hf]
        have hparts : Log.parts (log ++ [((w.setPart .mput (some q)).mputCall q, true)]) w.mputCtx.uploadId =
            log.parts w.mputCtx.uploadId ++ [(w.mputCtx.partNum, q.content)] := parts_mputCall
        refine .accepted (.mput hup hbig' ?_ ?_ rfl (by simp [Part.clear]) ?_ hpos ?_) rfl
          (.call hup hup rfl rfl ⟨rfl, rfl⟩) (hI.mput (w := w.setPart .mput (some q)) hid)
        · obtain ⟨k, hk, he⟩ := hid
          exact ⟨k, by simp; omega, he⟩
        · show (Log.parts _ w.mputCtx.uploadId).map Prod.fst = List.range (w.mputCtx.partNum + 1)
          rw [hparts, List.map_append, hnum, List.range_succ]
          rfl
        · simp only [Part.clear]
          exact (Nat.ne_of_gt hpos).symm
        · show ((Log.parts _ w.mputCtx.uploadId).map Prod.snd).flatten ++ q.clear.content = acc ++ data
          have hclear : q.clear.content = [] := by simp [Part.clear, Part.content]
          rw [hparts, hclear, List.append_nil, List.map_append, List.flatten_append, ← hacc, List.append_assoc, ← hcontent]
          simp
    · rw [run_uploadFull_not rfl hfull]
      refine .accepted (.mput hup hbig' hid hnum rfl ?_ hfull hpos ?_) rfl (.refl rfl rfl rfl) hI
      · simp [Part.append, Nat.min_eq_left hwf]
      · rw [hcontent, ← List.append_assoc]
        exact congrArg (· ++ data) hacc

/-! ### The switch of modes -/

theorem MB_8_pos : 0 < MB_8 := by decide

theorem MB_8_lt : MB_8 < 2 ^ 31 := by decide

/-- A full put part is one that was allocated. -/
theorem putPart_of_full (hfull : w.putOrNew.woff = w.putOrNew.partSize) :
    w.putPart = some w.putOrNew := by
  cases h : w.putPart with
  | some p => simp [putOrNew, h]
  | none =>
    simp only [putOrNew, h, Option.getD_none, Part.new] at hfull
    exact absurd hfull (Nat.ne_of_lt MB_8_pos)

/-- Before the rest of the data is looked at, the switch leaves what was accepted before it, unless the
    upload of the first part fails: then that part is neither uploaded nor in the part of the new mode. -/
theorem switch_outcome (hstaged : Staged P w log acc) (hup : w.uptype = .PUT)
    (hfull : w.putOrNew.woff = w.putOrNew.partSize) (hI : Issued P log) :
    Outcome P w log acc [] w.nextWriteOffset ((switchMputMode P.stor).run (w, log)) ∧
    ∀ a s', (switchMputMode P.stor).run (w, log) = .ok a s' → s'.1.uptype = .MPUT := by
  cases hstaged with
  | mput hup' => rw [hup] at hup'; cases hup'
  | put _ hsize hbuf hwoff =>
    have hput := putPart_of_full hfull
    set p := w.putOrNew with hpdef
    have hlen : acc.length = MB_8 := by rw [← hwoff, hfull, hsize]
    have hne : acc ≠ [] := by
      rintro rfl
      exact absurd hlen (Nat.ne_of_lt MB_8_pos)
    have hcontent : p.content = acc := by rw [Part.content, hbuf, hwoff, List.take_length]
    cases hf : P.fails log.length with
    | true =>
      rw [run_switchMputMode_error (stor_minit_error hf)]
      exact ⟨.minitFailed hup ⟨_, hf⟩, fun a s' h => by cases h⟩
    | false =>
      let r : MInitResp := { partSize := P.partSize log.length, uploadId := P.uploadId log.length }
      let log₁ : Log := log ++ [(.minit w.filePath r.uploadId, true)]
      have hI₁ : Issued P log₁ := hI.minit
      have hid : ∃ k < log₁.length, r.uploadId = P.uploadId k := ⟨log.length, by simp [log₁], rfl⟩
      have hparts₁ : log₁.parts r.uploadId = [] := by
        rw [parts_minit]
        exact hI.parts_fresh
      by_cases heq : r.partSize = p.woff
      · rw [run_switchMputMode_upload hput (stor_minit_ok hf) (P.partSize_lt _) heq]
        cases hf₁ : P.fails log₁.length with
        | true =>
          rw [stor_mput_error hf₁]
          refine ⟨.mputFailed mputFailed_append ?_ ⟨_, hf₁⟩, fun a s' h => by cases h⟩
          have hpend : pending (w.beginMput r).nextPart (log₁ ++ [((w.beginMput r).mputCall p, false)]) = [] := by
            simp only [pending, nextPart, beginMput]
            rw [Log.joined_of_range (n := 0), parts_mputCall_failed, hparts₁]
            · rfl
            · rw [parts_mputCall_failed, hparts₁]
              rfl
          rw [hpend]
          exact hne.symm
        | false =>
          rw [stor_mput_ok hf₁]
          have hparts : Log.parts (log₁ ++ [((w.beginMput r).mputCall p, true)]) r.uploadId = [(0, p.content)] := by
            have : Log.parts (log₁ ++ [((w.beginMput r).mputCall p, true)]) r.uploadId =
                log₁.parts r.uploadId ++ [(0, p.content)] := parts_mputCall
            rwa [hparts₁] at this
          refine ⟨.accepted (.mput rfl ?_ ?_ ?_ rfl (Nat.zero_le _) (Nat.ne_of_lt (P.partSize_pos _)) (P.partSize_pos _) ?_)
            rfl ⟨rfl, ⟨_, List.append_assoc .., ?_, ?_⟩, ?_⟩ (hI₁.mput (w := w.beginMput r) hid), fun a s' h => by cases h; rfl⟩
          · rw [List.append_nil, hlen]
          · exact ⟨log.length, by simp [log₁], rfl⟩
          · show (Log.parts _ r.uploadId).map Prod.fst = List.range 1
            rw [hparts]
            rfl
          · show ((Log.parts _ r.uploadId).map Prod.snd).flatten ++ [] = acc ++ []
            rw [hparts, hcontent]
            simp
          · intro c hc
            rcases List.mem_append.mp hc with hc | hc <;> rw [List.mem_singleton] at hc <;> subst hc <;>
              exact ⟨⟨rfl, rfl⟩, rfl⟩
          · rintro ⟨⟩
          · exact .inr ⟨hup, rfl, log.length, Nat.le_refl _, by simp [log₁], rfl⟩
      · rw [run_switchMputMode_copy hput (stor_minit_ok hf) (P.partSize_lt _) (P.partSize_pos _) heq
          (by rw [hwoff, hlen]; exact MB_8_pos) (by rw [hwoff, hlen]; exact MB_8_lt)]
        have hnew : ((Part.new r.partSize).append p.buf p.woff).content = acc := by
          rw [hbuf, hwoff, Part.content_append (by simp [Part.new])]
          rfl
        refine ⟨.accepted (.mput rfl ?_ hid ?_ rfl ?_ ?_ (P.partSize_pos _) ?_) rfl ⟨rfl, ⟨_, rfl, ?_, ?_⟩, ?_⟩ hI₁,
          fun a s' h => by cases h; rfl⟩
        · rw [List.append_nil, hlen]
        · show (log₁.parts r.uploadId).map Prod.fst = []
          rw [hparts₁]
          rfl
        · simp [Part.append, Part.new, hbuf, hwoff]
        · simp only [Part.append, Part.new, Nat.zero_add]
          exact Ne.symm heq
        · show ((log₁.parts r.uploadId).map Prod.snd).flatten ++ _ = acc ++ []
          rw [hparts₁, hnew]
          simp
        · intro c hc
          rw [List.mem_singleton] at hc
          subst hc
          exact ⟨⟨rfl, rfl⟩, rfl⟩
        · rintro ⟨⟩
        · exact .inr ⟨hup, rfl, log.length, Nat.le_refl _, by simp, rfl⟩

/-! ### The loop and the whole write -/

theorem writeLoop_mput_outcome (fuel : Nat) (hstaged : Staged P w log acc) (hup : w.uptype = .MPUT) (hI : Issued P log)
    (hdata : data ≠ []) (hlt : data.length < 2 ^ 31) :
    Outcome P w log acc data w.nextWriteOffset
      ((writeLoop P.stor (fuel + 1) data data.length 0 data.length).run (w, log)) := by
  obtain ⟨p, hp, hroom⟩ : ∃ p, w.mputPart = some p ∧ p.woff ≠ p.partSize := by
    cases hstaged with
    | put hup' => rw [hup] at hup'; cases hup'
    | mput _ _ _ _ hp _ hroom => exact ⟨_, hp, hroom⟩
  rw [run_writeLoop_mput_room hup hp hroom (List.length_pos_iff.mpr hdata) hlt]
  exact uploadFull_outcome hstaged hup hp hI hdata

theorem writeLoop_put_outcome {fuel : Nat} (hstaged : Staged P w log acc) (hup : w.uptype = .PUT) (hI : Issued P log)
    (hdata : data ≠ []) (hlt : data.length < 2 ^ 31) :
    Outcome P w log acc data w.nextWriteOffset
      ((writeLoop P.stor (fuel + 2) data data.length 0 data.length).run (w, log)) := by
  have h0 := List.length_pos_iff.mpr hdata
  by_cases hfull : w.putOrNew.woff = w.putOrNew.partSize
  · obtain ⟨hswitch, hmode⟩ := switch_outcome hstaged hup hfull hI
    rw [run_writeLoop_put_full hup (putPart_of_full hfull) hfull h0 hlt]
    generalize (switchMputMode P.stor).run (w, log) = r at hswitch hmode
    cases hswitch with
    | accepted staged offset sends issued =>
      -- The rest of the data goes to the part of the upload just begun.
      rw [List.append_nil] at staged
      have hup' := hmode _ _ rfl
      have := writeLoop_mput_outcome fuel staged hup' issued hdata hlt
      rw [offset] at this
      show Outcome P w log acc data _ ((writeLoop P.stor (fuel + 1) data data.length 0 data.length).run _)
      generalize (writeLoop P.stor (fuel + 1) data data.length 0 data.length).run _ = r at this
      cases this with
      | accepted staged' offset' sends' issued' => exact .accepted staged' offset' (sends.trans sends') issued'
      | minitFailed hput => rw [hup'] at hput; cases hput
      | mputFailed failed lost refused => exact .mputFailed failed lost refused
    | minitFailed hput refused => exact .minitFailed hput refused
    | mputFailed failed lost refused => exact .mputFailed failed lost refused
  · rw [run_writeLoop_put_room hup rfl hfull h0 hlt]
    cases hstaged with
    | mput hup' => rw [hup] at hup'; cases hup'
    | put _ hsize hbuf hwoff =>
      refine .accepted (.put hup hsize ?_ ?_) rfl (.refl rfl rfl rfl) hI
      · show (w.putOrNew.append data data.length).buf = acc ++ data
        simp [Part.append, hbuf, hwoff]
      · show (w.putOrNew.append data data.length).woff = (acc ++ data).length
        simp [Part.append, hwoff]

/-- The step lemma of the writer. -/
theorem write_outcome (hstaged : Staged P w log acc) (hoff : w.nextWriteOffset = acc.length) (hI : Issued P log)
    (hlt : data.length < 2 ^ 31) :
    Outcome P w log acc data (acc ++ data).length ((write P.stor acc.length data.length data).run (w, log)) := by
  rw [run_write hoff, List.length_append]
  by_cases hdata : data = []
  · subst hdata
    rw [List.length_nil, run_writeData_nil]
    refine .accepted ?_ (congrArg (· + 0) hoff) (.refl rfl rfl rfl) hI
    rw [List.append_nil]
    cases hstaged with
    | put hup hsize hbuf hwoff => exact .put hup hsize hbuf hwoff
    | mput hup hbig hid hnum hp hwf hroom hpos hacc => exact .mput hup hbig hid hnum hp hwf hroom hpos hacc
  · have hloop : Outcome P w log acc data w.nextWriteOffset ((writeData P.stor data data.length).run (w, log)) := by
      cases hup : w.uptype with
      | PUT => exact writeLoop_put_outcome hstaged hup hI hdata hlt
      | MPUT => exact writeLoop_mput_outcome _ hstaged hup hI hdata hlt
    generalize (writeData P.stor data data.length).run (w, log) = r at hloop
    cases hloop with
    | accepted staged offset sends issued =>
      refine .accepted ?_ (by simp [advance, offset, hoff]) ⟨sends.path, sends.grows, sends.mode⟩ issued
      cases staged with
      | put hup hsize hbuf hwoff => exact .put hup hsize hbuf hwoff
      | mput hup hbig hid hnum hp hwf hroom hpos hacc => exact .mput hup hbig hid hnum hp hwf hroom hpos hacc
    | minitFailed hput refused => exact .minitFailed hput refused
    | mputFailed failed lost refused => exact .mputFailed failed lost refused

end Catfs
