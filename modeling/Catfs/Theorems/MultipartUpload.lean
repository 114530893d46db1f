import Catfs.Multipart
import Catfs.Theorems.LogClient
import Catfs.Theorems.WriteErrors

/-! # Multipart uploads over S3

A completion that names no part is refused, so no upload of `S3Stor` ends in an object. -/

namespace Catfs

open Lib SequenceWriter
open EStateM (Result)

variable {σ : Type} {st : UploadStor σ} {c : S3Client σ} {mp : MultipartClient σ} {view : σ → Bucket}
  {isOpen : σ → Str → Str → Prop} {stored : σ → Str → Nat → Option (Str × List Byte)} {key id : Str}
  {parts : List (Nat × List Byte)} {t : σ}

/-- One `mput` for each part. -/
def mputAll (st : UploadStor σ) (key uploadId : Str) : List (Nat × List Byte) → EStateM Err σ Unit
  | [] => pure ()
  | p :: parts => do
    st.mput { objKey := key, uploadId, partNum := p.1, data := p.2, size := p.2.length }
    mputAll st key uploadId parts

/-- `minit`, one `mput` for each part, `mfinish`. -/
def uploadParts (st : UploadStor σ) (key : Str) (parts : List (Nat × List Byte)) : EStateM Err σ Unit := do
  let initResp ← st.minit { objKey := key }
  mputAll st key initResp.uploadId parts
  st.mfinish { objKey := key, uploadId := initResp.uploadId }

/-- The data of the parts in the order of their numbers. -/
def joinedParts (parts : List (Nat × List Byte)) : List Byte :=
  ((parts.insertionSort fun a b => a.1 ≤ b.1).map Prod.snd).flatten

/-- The upload returns and leaves the parts, joined, under the key. -/
def StoresParts (st : UploadStor σ) (view : σ → Bucket) (key : Str) (parts : List (Nat × List Byte)) (t : σ) : Prop :=
  ∃ t', uploadParts st key parts t = .ok () t' ∧ view t' key = some (joinedParts parts)

namespace MultipartClient

variable (h : mp.Assembles view isOpen stored)
include h

theorem run_mfinish (c : S3Client σ) (req : MFinishReq) (t : σ) : ∃ e t',
    (s3Stor (c.withMultipart mp)).mfinish req t = .error (.serverError e) t' ∧ view t' = view t := by
  obtain ⟨e, t', hrun, hview⟩ := h.rejects t req.objKey req.uploadId
  refine ⟨e.message, t', ?_, hview⟩
  show orServerError (mp.completeMultipartUpload req.objKey req.uploadId []) t = _
  rw [orServerError, hrun]

theorem run_minit (c : S3Client σ) (hkey : key ≠ []) (t : σ) : ∃ r t',
    (s3Stor (c.withMultipart mp)).minit { objKey := key } t = .ok r t' ∧ view t' = view t ∧ isOpen t' key r.uploadId := by
  obtain ⟨id, t', hrun, hview, hopen⟩ := h.creates t key hkey
  have hreq : orServerError ((c.withMultipart mp).createMultipartUpload key) t = .ok id t' := by
    show orServerError (mp.createMultipartUpload key) t = _
    rw [orServerError, hrun]
  exact ⟨{ partSize := 8 * 1024 * 1024, uploadId := id }, t', bind_ok hreq, hview, hopen⟩

theorem run_mput (c : S3Client σ) (n : Nat) (data : List Byte) (hopen : isOpen t key id) (hn : n < 10000) : ∃ t',
    (s3Stor (c.withMultipart mp)).mput { objKey := key, uploadId := id, partNum := n, data, size := data.length } t =
      .ok () t' ∧ view t' = view t ∧ isOpen t' key id := by
  obtain ⟨eTag, t', hrun, hview, hopen', -⟩ :=
    h.uploads t key id (s3PartNumber n) data hopen (Nat.le_add_left 1 n) (Nat.succ_le_of_lt hn)
  have hreq : (c.withMultipart mp).uploadPart key id (s3PartNumber n) data t = .ok () t' := bind_ok hrun
  refine ⟨t', ?_, hview, hopen'⟩
  simp only [s3Stor, List.take_length]
  rw [orServerError, hreq]

theorem run_mputAll (c : S3Client σ) (hopen : isOpen t key id) (hparts : ∀ p ∈ parts, p.1 < 10000) : ∃ t',
    mputAll (s3Stor (c.withMultipart mp)).toUploadStor key id parts t = .ok () t' ∧ view t' = view t := by
  induction parts generalizing t with
  | nil => exact ⟨t, rfl, rfl⟩
  | cons p parts ih =>
    obtain ⟨t₁, hput, hview₁, hopen₁⟩ := run_mput h c p.1 p.2 hopen (hparts p List.mem_cons_self)
    obtain ⟨t₂, hall, hview₂⟩ := ih hopen₁ fun q hq => hparts q (List.mem_cons_of_mem _ hq)
    exact ⟨t₂, (bind_ok hput).trans hall, hview₂.trans hview₁⟩

/-- No upload stores its parts; one whose requests S3 allows is refused at its end and leaves the bucket as it was. -/
theorem uploads_lost (c : S3Client σ) (key : Str) (parts : List (Nat × List Byte)) (t : σ) :
    ¬ StoresParts (s3Stor (c.withMultipart mp)).toUploadStor view key parts t ∧
    (key ≠ [] → (∀ p ∈ parts, p.1 < 10000) → ∃ e t',
      uploadParts (s3Stor (c.withMultipart mp)).toUploadStor key parts t = .error (.serverError e) t' ∧ view t' = view t) := by
  refine ⟨?_, fun hkey hparts => ?_⟩
  · rintro ⟨t', hrun, -⟩
    obtain ⟨r, t₁, -, hrest⟩ := of_bind_ok hrun
    obtain ⟨-, t₂, -, hfinish⟩ := of_bind_ok hrest
    obtain ⟨e, t₃, hrefused, -⟩ := run_mfinish h c { objKey := key, uploadId := r.uploadId } t₂
    cases hfinish.symm.trans hrefused
  · obtain ⟨r, t₁, hinit, hview₁, hopen⟩ := run_minit h c hkey t
    obtain ⟨t₂, hall, hview₂⟩ := run_mputAll h c hopen hparts
    obtain ⟨e, t₃, hrefused, hview₃⟩ := run_mfinish h c { objKey := key, uploadId := r.uploadId } t₂
    refine ⟨e, t₃, ?_, hview₃.trans (hview₂.trans hview₁)⟩
    rw [uploadParts, bind_ok hinit, bind_ok hall, hrefused]

/-- A writer that has switched to a multipart upload never finishes. -/
theorem finishMput_throws (c : S3Client σ) (s : SequenceWriter × σ) : ∃ e s',
    (finishMput (s3Stor (c.withMultipart mp)).toUploadStor).run s = .error e s' := by
  cases hlast : (uploadLast (s3Stor (c.withMultipart mp)).toUploadStor).run s with
  | error e s' => exact ⟨e, s', Prog.run_bind_error hlast⟩
  | ok a s₁ =>
    obtain ⟨e, t', hrefused, -⟩ := run_mfinish h c { objKey := s₁.1.filePath, uploadId := s₁.1.mputCtx.uploadId } s₁.2
    refine ⟨.serverError e, (s₁.1, t'), ?_⟩
    rw [finishMput, Prog.run_bind_ok hlast, Prog.run_bind_ok run_fields, run_call, hrefused]

end MultipartClient

/-! ### The service over a log -/

namespace Log

theorem parts_sent {log : Log} {key id id' : Str} {n : Nat} {body : List Byte} :
    Log.parts (log ++ [(.mput key id n body, true)]) id' = log.parts id' ++ if id = id' then [(n, body)] else [] := by
  rw [parts_append]
  by_cases hid : id = id'
  · simp [Log.parts, hid]
  · simp [Log.parts, hid]

theorem storedPart_sent {log : Log} {key id : Str} {n : Nat} {body : List Byte} (hn : 1 ≤ n) :
    storedPart (log ++ [(.mput key id (n - 1) body, true)]) id =
      Function.update (log.storedPart id) n (some (eTag body, body)) := by
  funext m
  have hnum : s3PartNumber (n - 1) = n := Nat.sub_add_cancel hn
  rw [storedPart, parts_sent, if_pos rfl, List.reverse_append, List.reverse_singleton, List.singleton_append,
    List.find?_cons, hnum, Function.update_apply]
  by_cases hm : m = n
  · rw [if_pos hm, hm, decide_eq_true rfl]
    rfl
  · rw [if_neg hm, decide_eq_false (Ne.symm hm)]
    rfl

theorem namedBodies_of_stored {log : Log} {id : Str} {named : List CompletedPart} {bodies : List (List Byte)}
    (h : List.Forall₂ (fun p body => log.storedPart id p.partNumber = some (p.eTag, body)) named bodies) :
    log.namedBodies id named = some bodies := by
  induction h with
  | nil => rfl
  | cons hp _ ih =>
    rw [namedBodies] at ih ⊢
    rw [List.mapM_cons, hp, ih]
    simp

/-- A call that changes no object changes no bucket. -/
theorem bucket_unchanged {log : Log} {c : StorCall × Bool} (hc : ∀ k obj, objectFrom k log obj [c] = obj) :
    Log.bucket (log ++ [c]) = log.bucket := by
  funext k
  by_cases hk : k = []
  · rw [hk, bucket_nil, bucket_nil]
  · rw [bucket_append hk, hc]

/-- The upload of `key` was begun under `id`. -/
def begun (log : Log) (key id : Str) : Prop := key ≠ [] ∧ (StorCall.minit key id, true) ∈ log

theorem multipart_assembles : multipart.Assembles bucket begun storedPart where
  creates log key hkey :=
    ⟨_, _, rfl, bucket_unchanged fun _ _ => rfl, hkey, List.mem_append_right _ List.mem_cons_self⟩
  uploads log key id n body hopen hn _ :=
    ⟨_, _, rfl, bucket_unchanged fun _ _ => rfl, hopen.imp_right (List.mem_append_left _), storedPart_sent hn⟩
  completes log key id named bodies hopen hnamed _ hstored _ := by
    refine ⟨_, ?_, bucket_putFile hopen.1⟩
    simp only [multipart, if_neg hnamed, namedBodies_of_stored hstored]
  rejects log key id := ⟨_, _, rfl, rfl⟩

end Log

namespace MultipartClient

theorem uploads_lost_twoParts :
    ¬ StoresParts (s3Stor (Log.client.withMultipart Log.multipart)).toUploadStor Log.bucket ['f'] [(1, [2]), (0, [1])] [] ∧
    ∃ e t', uploadParts (s3Stor (Log.client.withMultipart Log.multipart)).toUploadStor ['f'] [(1, [2]), (0, [1])] [] =
      .error (.serverError e) t' ∧ Log.bucket t' = Log.bucket [] := by
  obtain ⟨hlost, hrefused⟩ := uploads_lost Log.multipart_assembles Log.client ['f'] [(1, [2]), (0, [1])] []
  exact ⟨hlost, hrefused (by decide) (by decide)⟩

/-- Two parts that S3 holds are not stored. -/
theorem twoParts_refused : Log.multipart.Assembles Log.bucket Log.begun Log.storedPart ∧
    (∃ log, uploadParts (s3Stor (Log.client.withMultipart Log.multipart)).toUploadStor ['f'] [(0, [1]), (1, [2])] [] =
      .error (.serverError "MalformedXML".toList) log ∧ Log.bucket log ['f'] = none ∧
      log.parts [] = [(0, [1]), (1, [2])]) ∧
    ¬ StoresParts (s3Stor (Log.client.withMultipart Log.multipart)).toUploadStor Log.bucket ['f'] [(0, [1]), (1, [2])] [] := by
  have hrun : uploadParts (s3Stor (Log.client.withMultipart Log.multipart)).toUploadStor ['f'] [(0, [1]), (1, [2])] [] =
      .error (.serverError "MalformedXML".toList)
        [(.minit ['f'] [], true), (.mput ['f'] [] 0 [1], true), (.mput ['f'] [] 1 [2], true)] := rfl
  refine ⟨Log.multipart_assembles, ⟨_, hrun, by decide, by decide⟩, ?_⟩
  rintro ⟨log, hstored, -⟩
  cases hrun.symm.trans hstored

end MultipartClient

end Catfs
