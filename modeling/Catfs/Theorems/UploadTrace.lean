import Catfs.Theorems.WriteFailures

/-! # The trace of an upload

What the store is sent over a run of writes and the release that ends it, when no call fails: nothing, one
object, or the parts of one multipart upload. While a handle uploads, the parts sent so far are numbered from
0 and are full, and the part it fills next has the size that `minit` gave (`Sent`). -/

namespace Catfs

open Lib SequenceWriter
open EStateM (Result)

/-! ### The calls -/

namespace Log

def calls (log : Log) : List StorCall := log.map Prod.fst

@[simp] theorem calls_append {log new : Log} : calls (log ++ new) = log.calls ++ calls new := List.map_append

@[simp] theorem calls_cons {c : StorCall} {b : Bool} {log : Log} : calls ((c, b) :: log) = c :: log.calls := rfl

@[simp] theorem calls_nil : calls [] = [] := rfl

end Log

/-- The calls that send `parts`, numbered from 0 in the order they are sent. -/
def mputs (path id : Str) (parts : List (List Byte)) : List StorCall :=
  parts.mapIdx fun n body => .mput path id n body

theorem mputs_append {path id : Str} {parts : List (List Byte)} {body : List Byte} :
    mputs path id (parts ++ [body]) = mputs path id parts ++ [.mput path id parts.length body] := by
  simp [mputs, List.mapIdx_append]

/-- The calls made by the writes of a handle, and those made when it was released as well. The parts sent by
    the writes have the size of a part; the release sends the rest, if there is any. -/
inductive UploadTrace (path : Str) (partSize : Nat) : List StorCall → List StorCall → Prop where
  | nothing : UploadTrace path partSize [] []
  | object (body : List Byte) : UploadTrace path partSize [] [.putFile path body]
  | parts (id : Str) (full : List (List Byte)) (rest : Option (List Byte)) (hfull : ∀ body ∈ full, body.length = partSize)
    (hrest : ∀ body ∈ rest, body ≠ []) (hne : full ++ rest.toList ≠ []) :
    UploadTrace path partSize (.minit path id :: mputs path id full)
      (.minit path id :: mputs path id (full ++ rest.toList) ++ [.mfinish path id])

/-! ### The invariant -/

/-- What the writes of a handle have sent. -/
inductive Sent (P : Policy) (path : Str) (s : Handle) : Prop where
  | staging (hup : s.1.uptype = .PUT) (hlog : s.2 = [])
  | uploading (hup : s.1.uptype = .MPUT) (full : List (List Byte)) {q : Part}
    (hcalls : s.2.calls = .minit path s.1.mputCtx.uploadId :: mputs path s.1.mputCtx.uploadId full)
    (hnum : s.1.mputCtx.partNum = full.length) (hfull : ∀ body ∈ full, body.length = P.partSize 0)
    (hq : s.1.mputPart = some q) (hsize : q.partSize = P.partSize 0) (hne : full ≠ [] ∨ 0 < q.woff)

section
variable {P : Policy} {w : SequenceWriter} {log : Log} {acc data : List Byte} {path : Str}

theorem Part.content_length {p : Part} (h : p.woff ≤ p.buf.length) : p.content.length = p.woff := by
  rw [Part.content, List.length_take, Nat.min_eq_left h]

section
variable (hP : ∀ n, P.fails n = false)
include hP

/-- Data staged in a part of the upload: the part is sent when it is full, as the next of the parts. -/
theorem uploadFull_sent {p : Part} (hsent : Sent P path (w, log)) (hpath : w.filePath = path) (hup : w.uptype = .MPUT)
    (hp : w.mputPart = some p) (hwf : p.woff ≤ p.buf.length) (hdata : data ≠ []) :
    ∃ s', (uploadFull P.stor).run (w.setPart .mput (some (p.append data data.length)), log) = .ok () s' ∧
      Sent P path s' := by
  have hpos : 0 < data.length := List.length_pos_iff.mpr hdata
  cases hsent with
  | staging hup' => exact absurd (hup.symm.trans hup') (by simp)
  | uploading _ full hcalls hnum hfull hq hsize hne =>
    rename_i full q
    obtain rfl : p = q := Option.some.inj (hp.symm.trans hq)
    by_cases hexact : (p.append data data.length).woff = (p.append data data.length).partSize
    · rw [run_uploadFull rfl hexact, stor_mput_ok (hP _)]
      have hwf' : (p.append data data.length).woff ≤ (p.append data data.length).buf.length := by
        simp [Part.append, Nat.min_eq_left hwf]
      have hlen : (p.append data data.length).content.length = P.partSize 0 := by
        rw [Part.content_length hwf', hexact]
        exact hsize
      refine ⟨_, rfl, .uploading hup (full ++ [(p.append data data.length).content]) ?_ ?_ ?_ rfl hsize
        (.inl (by simp))⟩
      · show Log.calls (log ++ [((w.setPart .mput (some (p.append data data.length))).mputCall _, true)]) = _
        rw [Log.calls_append, Log.calls_cons, Log.calls_nil, show log.calls = _ from hcalls, mputs_append, mputCall, List.cons_append]
        simp only [setPart, nextPart, hpath, show w.mputCtx.partNum = full.length from hnum]
      · simp only [setPart, nextPart, List.length_append, List.length_singleton]
        exact congrArg (· + 1) hnum
      · intro body hbody
        rcases List.mem_append.mp hbody with hbody | hbody
        · exact hfull _ hbody
        · obtain rfl := List.mem_singleton.mp hbody
          exact hlen
    · rw [run_uploadFull_not rfl hexact]
      refine ⟨_, rfl, .uploading hup full hcalls hnum hfull rfl hsize (.inr ?_)⟩
      simp only [Part.append]
      omega

/-- The first part of an upload is sent or copied when the upload begins. -/
theorem switch_sent (hstaged : Staged P w [] acc) (hpath : w.filePath = path) (hup : w.uptype = .PUT)
    (hfull : w.putOrNew.woff = w.putOrNew.partSize) :
    ∃ s', (switchMputMode P.stor).run (w, []) = .ok () s' ∧ Sent P path s' ∧ s'.1.filePath = path := by
  cases hstaged with
  | mput hup' => exact absurd (hup.symm.trans hup') (by simp)
  | put _ hsize hbuf hwoff =>
    have hput := putPart_of_full hfull
    set p := w.putOrNew
    have hwoff' : p.woff = MB_8 := hfull.trans hsize
    have hcontent : p.content.length = p.woff := Part.content_length (by rw [hbuf, hwoff])
    have hminit : P.stor.minit { objKey := w.filePath } [] = _ := stor_minit_ok (hP ([] : Log).length)
    by_cases heq : P.partSize 0 = p.woff
    · rw [run_switchMputMode_upload hput hminit (P.partSize_lt _) heq, stor_mput_ok (hP _)]
      refine ⟨_, rfl, .uploading rfl [p.content] ?_ rfl ?_ rfl rfl (.inl (by simp)), hpath⟩
      · simp [mputs, mputCall, nextPart, setPart, beginMput, hpath]
      · intro body hbody
        obtain rfl := List.mem_singleton.mp hbody
        exact hcontent.trans heq.symm
    · rw [run_switchMputMode_copy hput hminit (P.partSize_lt _) (P.partSize_pos _) heq (hwoff' ▸ MB_8_pos)
        (hwoff' ▸ MB_8_lt)]
      refine ⟨_, rfl, .uploading rfl [] ?_ rfl (by simp) rfl rfl (.inr ?_), hpath⟩
      · simp [mputs, setPart, beginMput, hpath]
      · simp only [Part.append, Part.new, hwoff']
        exact Nat.lt_of_lt_of_le MB_8_pos (Nat.le_add_left _ _)

theorem writeLoop_mput_sent (fuel : Nat) (hsent : Sent P path (w, log)) (hstaged : Staged P w log acc)
    (hpath : w.filePath = path) (hup : w.uptype = .MPUT) (hdata : data ≠ []) (hlt : data.length < 2 ^ 31) :
    ∃ s', (writeLoop P.stor (fuel + 1) data data.length 0 data.length).run (w, log) = .ok () s' ∧ Sent P path s' := by
  cases hstaged with
  | put hup' => exact absurd (hup.symm.trans hup') (by simp)
  | mput _ hbig hid hnum hp hwf hroom hpos hacc =>
    rw [run_writeLoop_mput_room hup hp hroom (List.length_pos_iff.mpr hdata) hlt]
    exact uploadFull_sent hP hsent hpath hup hp hwf hdata

/-- In PUT mode nothing is sent while the part has room; a full part begins an upload. -/
theorem writeLoop_put_sent (fuel : Nat) (hstaged : Staged P w [] acc) (hpath : w.filePath = path) (hup : w.uptype = .PUT)
    (hI : Issued P []) (hdata : data ≠ []) (hlt : data.length < 2 ^ 31) :
    ∃ s', (writeLoop P.stor (fuel + 2) data data.length 0 data.length).run (w, []) = .ok () s' ∧ Sent P path s' ∧
      (s'.2 = [] ∨ MB_8 ≤ acc.length) := by
  have h0 := List.length_pos_iff.mpr hdata
  by_cases hfull : w.putOrNew.woff = w.putOrNew.partSize
  · obtain ⟨houtcome, hmode⟩ := switch_outcome hstaged hup hfull hI
    obtain ⟨⟨w', log'⟩, hswitch, hsent, hpath'⟩ := switch_sent hP hstaged hpath hup hfull
    rw [hswitch] at houtcome
    have hup' := hmode _ _ hswitch
    rw [run_writeLoop_put_full hup (putPart_of_full hfull) hfull h0 hlt, hswitch]
    have hstaged' : Staged P w' log' acc := by
      cases houtcome with
      | accepted staged => simpa using staged
    obtain ⟨s', hrun, hsent'⟩ := writeLoop_mput_sent hP fuel hsent hstaged' hpath' hup' hdata hlt
    refine ⟨s', hrun, hsent', .inr ?_⟩
    cases hstaged' with
    | put hup'' => exact absurd (hup'.symm.trans hup'') (by simp)
    | mput _ hbig => exact hbig
  · rw [run_writeLoop_put_room hup rfl hfull h0 hlt]
    exact ⟨_, rfl, .staging hup rfl, .inl rfl⟩

/-! ### The run -/

/-- A sequential write is accepted, and makes no call while at most one part's worth of bytes came in. -/
theorem exec_sent {s : Handle} (r : WriteReq) (h : HandleHolds P s acc) (hsent : Sent P path s) (hpath : s.1.filePath = path)
    (hoff : r.off = acc.length) :
    ∃ s', r.exec P s = .ok r.data.length s' ∧ HandleHolds P s' (acc ++ r.data) ∧ Sent P path s' ∧ s'.1.filePath = path ∧
      (s'.2 = s.2 ∨ MB_8 < (acc ++ r.data).length) := by
  obtain ⟨w, log⟩ := s
  obtain ⟨hstaged, hnext, hI⟩ := h
  have houtcome := write_outcome hstaged hnext hI r.short
  have hloop : ∃ s', (writeData P.stor r.data r.data.length).run (w, log) = .ok () s' ∧ Sent P path s' ∧
      (s'.2 = log ∨ MB_8 < (acc ++ r.data).length) := by
    by_cases hdata : r.data = []
    · rw [hdata]
      exact ⟨_, run_writeData_nil, hsent, .inl rfl⟩
    · have hpos := List.length_pos_iff.mpr hdata
      cases hup : w.uptype with
      | PUT =>
        cases hsent with
        | uploading hup' => exact absurd (hup.symm.trans hup') (by simp)
        | staging _ hlog =>
          obtain rfl : log = [] := hlog
          obtain ⟨s', hrun, hsent', hcalls⟩ := writeLoop_put_sent hP (r.data.length + 1) hstaged hpath hup hI hdata r.short
          exact ⟨s', hrun, hsent', hcalls.imp_right fun h => by rw [List.length_append]; omega⟩
      | MPUT =>
        obtain ⟨s', hrun, hsent'⟩ := writeLoop_mput_sent hP (r.data.length + 2) hsent hstaged hpath hup hdata r.short
        refine ⟨s', hrun, hsent', .inr ?_⟩
        cases hstaged with
        | put hup' => exact absurd (hup.symm.trans hup') (by simp)
        | mput _ hbig =>
          rw [List.length_append]
          omega
  obtain ⟨⟨w', log'⟩, hrun, hsent', hcalls⟩ := hloop
  have hexec : r.exec P (w, log) = .ok r.data.length (w'.advance r.data.length, log') := by
    rw [WriteReq.exec, run_write (hnext.trans hoff.symm), hrun, toInt_of_lt r.short]
  have hwrite := hexec
  rw [WriteReq.exec, hoff] at hwrite
  rw [hwrite] at houtcome
  cases houtcome with
  | accepted staged offset sends issued =>
    refine ⟨_, hexec, ⟨staged, offset, issued⟩, ?_, sends.path.trans hpath, hcalls⟩
    cases hsent' with
    | staging hup hlog => exact .staging hup hlog
    | uploading hup full hc hnum hfull hq hsize hne => exact .uploading hup full hc hnum hfull hq hsize hne

/-- The run lemma: what came in is staged or sent. -/
theorem runWrites_sent (reqs : List WriteReq) {s : Handle} (h : HandleHolds P s acc) (hsent : Sent P path s)
    (hpath : s.1.filePath = path) :
    HandleHolds P (runWrites P s reqs) (acc ++ acceptedData P s reqs) ∧ Sent P path (runWrites P s reqs) ∧
      (runWrites P s reqs).1.filePath = path := by
  induction reqs generalizing s acc with
  | nil => exact ⟨by simpa [acceptedData, runWrites] using h, hsent, hpath⟩
  | cons r reqs ih =>
    rw [runWrites, acceptedData, ← List.append_assoc]
    by_cases hoff : r.off = acc.length
    · obtain ⟨s', hexec, hholds, hsent', hpath', -⟩ := exec_sent hP r h hsent hpath hoff
      rw [WriteReq.accepted, hexec]
      exact ih hholds hsent' hpath'
    · have hreject := run_write_reject (S := P.stor) (w := s.1) (t := s.2) (n := r.data.length) r.data
        (fun he => hoff (he.symm.trans h.offset))
      rw [WriteReq.accepted, WriteReq.exec, hreject, List.append_nil]
      exact ih h hsent hpath

/-- A release hands the rest to the store. -/
theorem release_sent {s : Handle} (h : HandleHolds P s acc) (hsent : Sent P path s) (hpath : s.1.filePath = path) :
    ∃ s', (release P.stor).run s = .ok () s' ∧ UploadTrace path (P.partSize 0) s.2.calls s'.2.calls := by
  obtain ⟨w, log⟩ := s
  obtain rfl : w.filePath = path := hpath
  cases hsent with
  | staging hup hlog =>
    obtain rfl : log = [] := hlog
    rcases release_outcome h.staged h.offset with ⟨w', log', hrun, hdel, -⟩ | ⟨e, s', -, -, hrefused, -⟩
    · refine ⟨_, hrun, ?_⟩
      cases hdel with
      | nothing => exact .nothing
      | put => exact .object acc
      | upload hup' => exact absurd (hup.symm.trans hup') (by simp)
    · exact absurd (fun _ _ => hP _) hrefused
  | @uploading hup full q hcalls hnum hfull hq hsize hne =>
    have hnext : w.nextWriteOffset ≠ 0 := by
      have hoff : w.nextWriteOffset = acc.length := h.offset
      cases h.staged with
      | put hup' => exact absurd (hup.symm.trans hup') (by simp)
      | mput _ hbig =>
        have := MB_8_pos
        omega
    have hwf : q.woff ≤ q.buf.length := by
      cases h.staged with
      | put hup' => exact absurd (hup.symm.trans hup') (by simp)
      | mput _ _ _ _ hp hwf =>
        obtain rfl := Option.some.inj (hq.symm.trans hp)
        exact hwf
    rw [run_release_mput hnext hup]
    by_cases hw : q.woff = 0
    · rw [run_uploadLast_empty hq hw]
      simp only [stor_mfinish_ok (hP _)]
      refine ⟨_, rfl, ?_⟩
      have hne' : full ≠ [] := hne.resolve_right (by omega)
      have htrace : UploadTrace w.filePath (P.partSize 0) _ _ :=
        .parts w.mputCtx.uploadId full none hfull (by simp) (by simpa using hne')
      simpa [show log.calls = _ from hcalls] using htrace
    · rw [run_uploadLast hq (Nat.pos_of_ne_zero hw), stor_mput_ok (hP _)]
      simp only [stor_mfinish_ok (hP _)]
      refine ⟨_, rfl, ?_⟩
      have hbody : q.content ≠ [] := by
        rw [← List.length_pos_iff, Part.content_length hwf]
        omega
      have htrace : UploadTrace w.filePath (P.partSize 0) _ _ :=
        .parts w.mputCtx.uploadId full (some q.content) hfull (by simpa using hbody) (by simp)
      have hnum' : w.mputCtx.partNum = full.length := hnum
      simpa [show log.calls = _ from hcalls, mputs_append, mputCall, nextPart, setPart, hnum'] using htrace

/-- Over every run of writes and the release after it: sequential writes are accepted, a write makes no call
    unless the bytes accepted with it exceed 8 MiB, and the calls are those of no upload, of one object, or of one
    multipart upload with its parts in order. -/
theorem upload_trace (path : Str) (reqs : List WriteReq) :
    (∃ s, (release P.stor).run (runWrites P (.new path, []) reqs) = .ok () s ∧
      UploadTrace path (P.partSize 0) (runWrites P (.new path, []) reqs).2.calls s.2.calls) ∧
    ∀ r : WriteReq, r.off = (acceptedData P (.new path, []) reqs).length →
      ∃ s, r.exec P (runWrites P (.new path, []) reqs) = .ok r.data.length s ∧
        (s.2 ≠ (runWrites P (.new path, []) reqs).2 →
          MB_8 < (acceptedData P (.new path, []) reqs ++ r.data).length) := by
  obtain ⟨hholds, hsent, hpath⟩ := runWrites_sent hP reqs (HandleHolds.new (P := P)) (.staging rfl rfl) rfl
  rw [List.nil_append] at hholds
  refine ⟨release_sent hP hholds hsent hpath, fun r hoff => ?_⟩
  obtain ⟨s', hexec, -, -, -, hcalls⟩ := exec_sent hP r hholds hsent hpath hoff
  exact ⟨s', hexec, hcalls.resolve_left⟩

end

end

/-- One byte is sent as one object. -/
theorem upload_trace_oneByte :
    (∃ s, (release (Policy.s3 fun _ => false).stor).run (runWrites (.s3 fun _ => false) (.new ['a'], []) [⟨0, [7], by decide⟩]) =
        .ok () s ∧ UploadTrace ['a'] MB_8 [] s.2.calls) ∧
      ∃ s, WriteReq.exec (.s3 fun _ => false) ⟨0, [7], by decide⟩ (.new ['a'], []) = .ok 1 s ∧ s.2 = [] := by
  obtain ⟨hrelease, -⟩ := upload_trace (P := .s3 fun _ => false) (fun _ => rfl) ['a'] [⟨0, [7], by decide⟩]
  obtain ⟨-, hwrite⟩ := upload_trace (P := .s3 fun _ => false) (fun _ => rfl) ['a'] []
  obtain ⟨s, hexec, hcalls⟩ := hwrite ⟨0, [7], by decide⟩ rfl
  refine ⟨hrelease, s, hexec, ?_⟩
  by_contra hne
  exact absurd (hcalls hne) (by decide)

end Catfs
