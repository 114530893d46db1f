import Catfs.Theorems.ClosedFile

/-! # The range requests of a read

A client that records the ranges it is asked for, and what `readfile` asks of it. A reader that takes a file in chunks
stops at the first chunk that is empty. -/

namespace Catfs

open Lib
open EStateM (Result)

variable {σ : Type} {c : S3Client σ} {view : σ → Bucket} {hno : HandleID} {file : OpenFile} {body : List Byte} {off size : Nat}

/-- A range of a `GET`, both ends included. -/
structure RangeRequest where
  key : Str
  first : Nat
  last : Nat
  deriving DecidableEq, Repr

abbrev Recorded (σ : Type) := σ × List RangeRequest

namespace S3Client

def unrecorded {α : Type} (m : EStateM S3Error σ α) : EStateM S3Error (Recorded σ) α := zoom Prod.fst (fun t s => (t, s.2)) m

/-- The same client, which notes every range before it asks for it. -/
def recording (c : S3Client σ) : S3Client (Recorded σ) where
  garbage s := c.garbage s.1
  headObject key := unrecorded (c.headObject key)
  listObjects req := unrecorded (c.listObjects req)
  putObject key body := unrecorded (c.putObject key body)
  deleteObject key := unrecorded (c.deleteObject key)
  getObject key first last := do
    modify fun s => (s.1, s.2 ++ [⟨key, first, last⟩])
    unrecorded (c.getObject key first last)
  createMultipartUpload key := unrecorded (c.createMultipartUpload key)
  uploadPart key uploadId partNumber body := unrecorded (c.uploadPart key uploadId partNumber body)
  completeMultipartUpload key uploadId := unrecorded (c.completeMultipartUpload key uploadId)

/-- A range that begins in the object is answered with its bytes there. -/
structure ServesRanges (c : S3Client σ) (view : σ → Bucket) : Prop where
  get : ∀ t key body first last, view t key = some body → first ≤ last → first < body.length →
    ∃ t', c.getObject key first last t = .ok (body.extract first (last + 1)) t' ∧ view t' = view t

end S3Client

/-! ### One read -/

/-- A range that lies in the object. -/
structure RangeRequest.Within (r : RangeRequest) (path : Str) (length : Nat) : Prop where
  key : r.key = path
  ordered : r.first ≤ r.last
  bounded : r.last < length

theorem run_readFile_recording (hc : c.ServesRanges view) {t : Recorded σ} {key : Str} (hbody : view t.1 key = some body)
    (hsize : size ≠ 0) (hend : off + size ≤ body.length) (hlen : body.length < 2 ^ 63) : ∃ t' : Recorded σ,
      (s3Stor c.recording).readFile { objKey := key, off, size } t =
        .ok { dst := body.extract off (off + size), bytes := size } t' ∧
      view t'.1 = view t.1 ∧ t'.2 = t.2 ++ [⟨key, off, off + size - 1⟩] := by
  have hlast : off + size - 1 + 1 = off + size := by omega
  obtain ⟨t₁, hget, hview⟩ := hc.get t.1 key body off (off + size - 1) hbody (by omega) (by omega)
  rw [hlast] at hget
  have hsent : c.recording.getObject key off (off + size - 1) t =
      .ok (body.extract off (off + size)) (t₁, t.2 ++ [⟨key, off, off + size - 1⟩]) := by
    show S3Client.unrecorded _ (t.1, t.2 ++ [_]) = _
    exact zoom_ok hget
  have hreq : orServerError (c.recording.getObject key off (off + size - 1)) t =
      .ok (body.extract off (off + size)) (t₁, t.2 ++ [⟨key, off, off + size - 1⟩]) := by rw [orServerError, hsent]
  have hlength : (body.extract off (off + size)).length = size := by
    rw [List.extract_eq_take_drop, List.length_take, List.length_drop]
    omega
  refine ⟨(t₁, t.2 ++ [⟨key, off, off + size - 1⟩]), ?_, hview, rfl⟩
  simp only [s3Stor, lastByte_eq hsize (show off + size ≤ 2 ^ 64 by omega)]
  rw [bind_ok hreq]
  show Result.ok _ _ = _
  rw [hlength]

/-- What a read through a handle on an unchanged object does. -/
structure ReadsRange (view : σ → Bucket) (fs : CatFS (Recorded σ)) (hno : HandleID) (c : S3Client σ) (path : Str) (body : List Byte)
    (off size : Nat) (t : Recorded σ) : Prop where
  answer : CatFS.readfile (s3Stor c.recording) hno off size fs =
    .ok (body.extract off (min (off + size) body.length)) (fs.setStor t)
  unchanged : view t.1 = view fs.world.stor.1
  sent : ∃ ranges, t.2 = fs.world.stor.2 ++ ranges ∧ ∀ r ∈ ranges, r.Within path body.length

theorem extract_min (h : body.length ≤ off ∨ size = 0) : body.extract off (min (off + size) body.length) = [] := by
  rw [List.extract_eq_take_drop, List.take_eq_nil_iff]
  rcases h with hoff | rfl
  · left
    omega
  · left
    omega

theorem reads_clamped (hoff : off < 2 ^ 63) (hsize : size < 2 ^ 31) (hlen : body.length < 2 ^ 63) (hlt : off < body.length) :
    (if body.length < u64 (off + size) then u64 (body.length - off) else size) = min (off + size) body.length - off := by
  have hsum : u64 ((off : Int) + size) = off + size := by
    rw [u64]
    omega
  have hrest : u64 ((body.length : Int) - off) = body.length - off := by
    rw [u64]
    omega
  rw [hsum, hrest]
  split <;> omega

theorem readfile_reads (hc : c.ServesRanges view) {fs : CatFS (Recorded σ)} (hopen : fs.openFiles hno = some file)
    (hbody : view fs.world.stor.1 file.rtfile.path = some body) (hsame : file.rtfile.size = body.length)
    (hlen : body.length < 2 ^ 63) (hoff : off < 2 ^ 63) (hsize : size < 2 ^ 31) :
    ∃ t, ReadsRange view fs hno c file.rtfile.path body off size t := by
  have hread : CatFS.readfile (s3Stor c.recording) hno off size fs = file.read (s3Stor c.recording) off size fs := by
    rw [CatFS.readfile, bind_ok (CatFS.run_openFile hopen)]
  by_cases hpast : body.length ≤ off
  · refine ⟨fs.world.stor, ?_, rfl, [], (List.append_nil _).symm, fun r hr => by cases hr⟩
    rw [hread, extract_min (.inl hpast), OpenFile.read]
    simp only [hsame, if_pos hpast]
    rfl
  have hlt : off < body.length := Nat.lt_of_not_le hpast
  have hclamp := reads_clamped hoff hsize hlen hlt
  by_cases hzero : size = 0
  · refine ⟨fs.world.stor, ?_, rfl, [], (List.append_nil _).symm, fun r hr => by cases hr⟩
    have hnone : min (off + size) body.length - off = 0 := by omega
    rw [hread, extract_min (.inr hzero), OpenFile.read]
    simp only [hsame, hclamp, hnone, if_neg hpast, if_true]
    rfl
  have hsome : min (off + size) body.length - off ≠ 0 := by omega
  have hend : off + (min (off + size) body.length - off) = min (off + size) body.length := by omega
  have hlast : off + (min (off + size) body.length - off) ≤ body.length := by
    rw [hend]
    exact Nat.min_le_right _ _
  obtain ⟨t, hget, hview, hsent⟩ := run_readFile_recording hc hbody hsome hlast hlen
  have hzoom : zoom (fun fs : CatFS (Recorded σ) => fs.world.stor) (fun t fs => fs.setStor t)
      ((s3Stor c.recording).readFile
        { objKey := file.rtfile.path, off, size := min (off + size) body.length - off }) fs = .ok _ (fs.setStor t) :=
    zoom_ok hget
  refine ⟨t, ?_, hview, _, hsent, ?_⟩
  · rw [hread, OpenFile.read]
    simp only [hsame, hclamp, if_neg hpast, if_neg hsome]
    rw [bind_ok hzoom]
    have hall : (body.extract off (min (off + size) body.length)).take (min (off + size) body.length - off) =
        body.extract off (min (off + size) body.length) := by
      rw [List.extract_eq_take_drop, List.take_take, Nat.min_self]
    show Result.ok _ _ = _
    rw [hend, hall]
  · intro r hr
    obtain rfl := List.mem_singleton.mp hr
    refine ⟨rfl, ?_, ?_⟩
    · show off ≤ off + (min (off + size) body.length - off) - 1
      omega
    · show off + (min (off + size) body.length - off) - 1 < body.length
      omega

/-! ### A file read in chunks -/

/-- A caller that reads chunks of the sizes `sizes i`, `sizes (i + 1)` and so on from `off` on until one is empty, for at
    most `fuel` reads. -/
def readChunks (st : Stor σ) (hno : HandleID) (sizes : Nat → Nat) : Nat → Nat → Nat → FsM σ (List Byte)
  | 0, _, _ => throw .diverge
  | fuel + 1, i, off => do
    let bytes ← CatFS.readfile st hno off (sizes i)
    if bytes = [] then pure []
    else do
      let rest ← readChunks st hno sizes fuel (i + 1) (off + bytes.length)
      pure (bytes ++ rest)

theorem extract_append_drop {n : Nat} (h : off ≤ n) : body.extract off n ++ body.drop n = body.drop off := by
  have hdrop : body.drop n = (body.drop off).drop (n - off) := by
    rw [List.drop_drop, Nat.add_sub_cancel' h]
  rw [List.extract_eq_take_drop, hdrop, List.take_append_drop]

/-- Every chunk that is not empty moves the offset on, so the rest of the object bounds the reads. -/
theorem run_readChunks (hc : c.ServesRanges view) {sizes : Nat → Nat} (hsizes : ∀ i, 1 ≤ sizes i ∧ sizes i < 2 ^ 31)
    (hsame : file.rtfile.size = body.length) (hlen : body.length < 2 ^ 63) :
    ∀ (fuel i off : Nat) (fs : CatFS (Recorded σ)), fs.openFiles hno = some file →
      view fs.world.stor.1 file.rtfile.path = some body → off ≤ body.length → body.length - off < fuel →
      ∃ t, readChunks (s3Stor c.recording) hno sizes fuel i off fs = .ok (body.drop off) (fs.setStor t) := by
  intro fuel
  induction fuel with
  | zero =>
    intro i off fs _ _ _ hfuel
    cases hfuel
  | succ fuel ih =>
    intro i off fs hopen hbody hoff hfuel
    obtain ⟨hpos, hsize⟩ := hsizes i
    obtain ⟨t, hread⟩ := readfile_reads hc hopen hbody hsame hlen (by omega : off < 2 ^ 63) hsize
    rw [readChunks, bind_ok hread.answer]
    by_cases hend : body.length ≤ off
    · rw [extract_min (.inl hend), List.drop_eq_nil_of_le hend]
      exact ⟨t, rfl⟩
    · have hlength : (body.extract off (min (off + sizes i) body.length)).length = min (off + sizes i) body.length - off := by
        rw [List.extract_eq_take_drop, List.length_take, List.length_drop]
        omega
      have hsome : body.extract off (min (off + sizes i) body.length) ≠ [] := by
        rw [← List.length_pos_iff, hlength]
        omega
      have hnext : off + (min (off + sizes i) body.length - off) = min (off + sizes i) body.length := by omega
      obtain ⟨t', hrest⟩ := ih (i + 1) (min (off + sizes i) body.length) (fs.setStor t) hopen (hread.unchanged ▸ hbody)
        (Nat.min_le_right _ _) (by omega)
      rw [if_neg hsome, hlength, hnext, bind_ok hrest]
      refine ⟨t', ?_⟩
      show Result.ok _ _ = _
      rw [extract_append_drop (by omega)]
      rfl

/-- A read returns the bytes of the object in its range, asks only for ranges in the object and writes no more than the
    size; reads in chunks put the object together. -/
theorem readfile_object (hc : c.ServesRanges view) {fs : CatFS (Recorded σ)} (hopen : fs.openFiles hno = some file)
    (hbody : view fs.world.stor.1 file.rtfile.path = some body) (hsame : file.rtfile.size = body.length)
    (hlen : body.length < 2 ^ 63) :
    (∀ off size, off < 2 ^ 63 → size < 2 ^ 31 → ∃ bytes t,
      CatFS.readfile (s3Stor c.recording) hno off size fs = .ok bytes (fs.setStor t) ∧
      bytes = body.extract off (min (off + size) body.length) ∧ (body.length ≤ off ∨ size = 0 → bytes = []) ∧
      bytes.length ≤ size ∧ ∃ ranges, t.2 = fs.world.stor.2 ++ ranges ∧ ∀ r ∈ ranges, r.Within file.rtfile.path body.length) ∧
    (∀ sizes : Nat → Nat, (∀ i, 1 ≤ sizes i ∧ sizes i < 2 ^ 31) → ∃ reads t,
      readChunks (s3Stor c.recording) hno sizes reads 0 0 fs = .ok body (fs.setStor t)) := by
  refine ⟨fun off size hoff hsize => ?_, fun sizes hsizes => ?_⟩
  · obtain ⟨t, hread⟩ := readfile_reads hc hopen hbody hsame hlen hoff hsize
    refine ⟨_, t, hread.answer, rfl, extract_min, ?_, hread.sent⟩
    rw [List.extract_eq_take_drop, List.length_take, List.length_drop]
    omega
  · obtain ⟨t, hrun⟩ := run_readChunks hc hsizes hsame hlen (body.length + 1) 0 0 fs hopen hbody (Nat.zero_le _) (by omega)
    exact ⟨_, t, hrun⟩

theorem Log.client_servesRanges : Log.client.ServesRanges Log.bucket where
  get log key body first last hbody _ _ := by
    refine ⟨log, ?_, rfl⟩
    simp only [Log.client, hbody, List.extract_eq_take_drop]

/-- An object of five bytes, opened. -/
def openedFive : CatFS (Recorded Log) where
  world := {
    cache := LocalMemMeta.new ⟨0, 0, 60⟩ ⟨0, 0⟩
    stor := ([(.putFile ['f'] [1, 2, 3, 4, 5], true)], [])
    now := ⟨0, 0⟩
    garbage := ⟨false, 0, ⟨0, 0⟩, ⟨0, 0⟩⟩ }
  openFiles := Function.update (fun _ => none) 0 (some (.new 2 0 ⟨['f'], 5⟩ false))
  nextHandleId := 1

theorem readfile_object_five : ∃ file, openedFive.openFiles 0 = some file ∧
    (∀ off size, off < 2 ^ 63 → size < 2 ^ 31 → ∃ bytes t,
      CatFS.readfile (s3Stor Log.client.recording) 0 off size openedFive = .ok bytes (openedFive.setStor t) ∧
      bytes = List.extract [1, 2, 3, 4, 5] off (min (off + size) 5) ∧ (5 ≤ off ∨ size = 0 → bytes = []) ∧
      bytes.length ≤ size ∧ ∃ ranges, t.2 = openedFive.world.stor.2 ++ ranges ∧ ∀ r ∈ ranges, r.Within file.rtfile.path 5) ∧
    (∀ sizes : Nat → Nat, (∀ i, 1 ≤ sizes i ∧ sizes i < 2 ^ 31) → ∃ reads t,
      readChunks (s3Stor Log.client.recording) 0 sizes reads 0 0 openedFive = .ok [1, 2, 3, 4, 5] (openedFive.setStor t)) :=
  ⟨_, rfl, readfile_object Log.client_servesRanges rfl (by decide) rfl (by decide)⟩

example : (endState (readChunks (s3Stor Log.client.recording) 0 (fun i => i + 2) 3 0 0 openedFive)).world.stor.2 =
    [⟨['f'], 0, 1⟩, ⟨['f'], 2, 4⟩] := by decide +kernel

end Catfs
