import Catfs.LogBucket
import Catfs.Theorems.ReleaseOutcome
import Mathlib.Data.List.Dedup

/-! # The client over a log serves its bucket -/

namespace Catfs

open Lib
open EStateM (Result)

namespace Log

variable {log : Log} {pre key e : Str}

/-! ### Keys -/

theorem mem_written_of_objectFrom {obj : Option (List Byte)} {before rest : Log}
    (h : (objectFrom key before obj rest).isSome) : obj.isSome ∨ key ∈ written rest := by
  induction rest generalizing before obj with
  | nil => exact .inl h
  | cons c rest ih =>
    obtain ⟨c, ok⟩ := c
    have hskip : ∀ {obj'}, (objectFrom key (before ++ [(c, ok)]) obj' rest).isSome →
        (obj'.isSome → obj.isSome ∨ key ∈ written [(c, ok)]) →
        obj.isSome ∨ key ∈ written ((c, ok) :: rest) := by
      intro obj' h' hobj
      rw [show (c, ok) :: rest = [(c, ok)] ++ rest from rfl, written, List.filterMap_append, List.mem_append]
      rcases ih h' with h' | h'
      · exact (hobj h').imp id .inl
      · exact .inr (.inr h')
    rw [show objectFrom key before obj ((c, ok) :: rest) = objectFrom key (before ++ [(c, ok)]) _ rest from rfl] at h
    refine hskip h fun hobj => ?_
    cases c with
    | putFile k body =>
      cases ok with
      | true =>
        by_cases hk : k = key
        · exact .inr (by simp [written, hk])
        · exact .inl (by simpa [hk] using hobj)
      | false => exact .inl hobj
    | mfinish k id =>
      cases ok with
      | true =>
        by_cases hk : k = key
        · exact .inr (by simp [written, hk])
        · exact .inl (by simpa [hk] using hobj)
      | false => exact .inl hobj
    | deleteFile k =>
      cases ok with
      | true =>
        by_cases hk : k = key
        · simp [hk] at hobj
        · exact .inl (by simpa [hk] using hobj)
      | false => exact .inl hobj
    | minit k id => exact .inl hobj
    | mput k id n body => exact .inl hobj

theorem mem_keys : key ∈ log.keys ↔ log.bucket.Holds key := by
  rw [keys, List.mem_filter, List.mem_dedup]
  refine ⟨fun h => h.2, fun h => ⟨?_, h⟩⟩
  have hobj : (log.object key).isSome := by
    unfold Bucket.Holds bucket at h
    split at h
    · cases h
    · exact h
  rcases mem_written_of_objectFrom hobj with h | h
  · cases h
  · exact h

theorem holds_ne_nil (h : log.bucket.Holds key) : key ≠ [] := by
  rintro rfl
  simp [Bucket.Holds, bucket] at h

/-! ### Entries -/

theorem takeWhile_name {n rest : Str} (hn : '/' ∉ n) : (n ++ '/' :: rest).takeWhile (· != '/') = n := by
  rw [List.takeWhile_append_of_pos fun c hc => by
    simp only [bne_iff_ne, ne_eq]
    rintro rfl
    exact hn hc]
  simp

/-- An entry is a key directly under `pre`, or a common prefix. -/
theorem entryOf_cases (b : Bucket) : (∃ key, b.Holds key ∧ entryOf pre key = some e) ↔
    (isPrefix pre e = false ∧ ∃ n, e = pre ++ n ∧ '/' ∉ n ∧ b.Holds e) ∨
    (isPrefix pre e = true ∧ ∃ n, e = pre ++ n ++ slash ∧ '/' ∉ n ∧ ∃ rest, b.Holds (e ++ rest)) := by
  constructor
  · rintro ⟨key, hkey, he⟩
    unfold entryOf at he
    split at he
    · rename_i hpre
      obtain ⟨rest, rfl⟩ := hpre
      simp only [List.drop_left, Option.some.injEq] at he
      by_cases hs : '/' ∈ rest
      · -- The first slash ends the entry.
        obtain ⟨n, rest', rfl, hn⟩ := List.eq_append_cons_of_mem hs
        rw [if_pos hs, takeWhile_name hn] at he
        subst he
        refine .inr ⟨by simp [isPrefix, slash], n, (List.append_assoc ..).symm, hn, rest', ?_⟩
        simpa [slash] using hkey
      · rw [if_neg hs] at he
        subst he
        exact .inl ⟨by simpa [isPrefix] using hs, rest, rfl, hs, hkey⟩
    · cases he
  · rintro (⟨-, n, rfl, hn, hkey⟩ | ⟨-, n, rfl, hn, rest, hkey⟩)
    · refine ⟨_, hkey, ?_⟩
      simp [entryOf, hn]
    · refine ⟨_, hkey, ?_⟩
      have hpre : pre <+: pre ++ n ++ slash ++ rest := ⟨n ++ slash ++ rest, by simp⟩
      have hdrop : (pre ++ n ++ slash ++ rest).drop pre.length = n ++ '/' :: rest := by simp [slash]
      rw [entryOf, if_pos hpre, hdrop]
      simp [takeWhile_name hn]

theorem mem_entries : e ∈ log.entries pre ↔
    (isPrefix pre e = false ∧ ∃ n, e = pre ++ n ∧ '/' ∉ n ∧ log.bucket.Holds e) ∨
    (isPrefix pre e = true ∧ ∃ n, e = pre ++ n ++ slash ∧ '/' ∉ n ∧ ∃ rest, log.bucket.Holds (e ++ rest)) := by
  rw [← entryOf_cases, entries, List.mem_insertionSort, List.mem_dedup, List.mem_filterMap]
  simp only [mem_keys]

theorem entries_sorted : (log.entries pre).Pairwise (· < ·) := by
  have hnodup : (log.entries pre).Nodup :=
    (List.perm_insertionSort _ _).nodup_iff.mpr (List.nodup_dedup _)
  exact ((List.pairwise_insertionSort (· ≤ ·) _).and hnodup).imp fun h => lt_of_le_of_ne h.1 h.2

theorem entries_ne_nil (h : e ∈ log.entries pre) : e ≠ [] := by
  rcases mem_entries.mp h with ⟨-, n, rfl, -, hk⟩ | ⟨-, n, rfl, -, -⟩
  · exact holds_ne_nil hk
  · simp [slash]

/-! ### Pages -/

theorem mem_contents {req : ListObjectsRequest} {o : S3Object} : o ∈ (log.listing req).contents ↔
    ∃ e ∈ page (markerOf req.marker) req.maxKeys (log.entries req.pre), isPrefix req.pre e = false ∧ log.s3Object e = o := by
  simp [listing, and_assoc]

theorem mem_commonPrefixes {req : ListObjectsRequest} : e ∈ (log.listing req).commonPrefixes ↔
    e ∈ page (markerOf req.marker) req.maxKeys (log.entries req.pre) ∧ isPrefix req.pre e = true := by
  simp [listing]

theorem partOfListing (req : ListObjectsRequest) :
    log.bucket.PartOfListing req.pre (log.listing req).contents (log.listing req).commonPrefixes where
  keys o ho := by
    obtain ⟨e, he, hp, rfl⟩ := mem_contents.mp ho
    rcases mem_entries.mp (mem_of_mem_page he) with ⟨-, n, hn, hs, hk⟩ | ⟨hp', -⟩
    · obtain ⟨body, hbody⟩ := Option.isSome_iff_exists.mp hk
      exact ⟨n, body, hn, hs, hbody, by simp [s3Object, hbody]⟩
    · rw [hp] at hp'
      cases hp'
  prefixes p hp := by
    obtain ⟨he, hp⟩ := mem_commonPrefixes.mp hp
    rcases mem_entries.mp (mem_of_mem_page he) with ⟨hp', -⟩ | ⟨-, h⟩
    · rw [hp] at hp'
      cases hp'
    · exact h

theorem mem_page_keys {marker : Str} : (∃ o ∈ (log.listing (pageRequest pre marker)).contents, o.key = e) ↔
    e ∈ page (markerOf marker) 1000 (log.entries pre) ∧ isPrefix pre e = false := by
  simp only [mem_contents]
  constructor
  · rintro ⟨-, ⟨e', he', hp, rfl⟩, rfl⟩
    exact ⟨he', hp⟩
  · rintro ⟨he, hp⟩
    exact ⟨_, ⟨e, he, hp, rfl⟩, rfl⟩

theorem contents_object {req : ListObjectsRequest} {o : S3Object} (ho : o ∈ (log.listing req).contents) :
    o = log.s3Object o.key := by
  obtain ⟨e, -, -, rfl⟩ := mem_contents.mp ho
  rfl

/-- The marker after a page is its last entry. -/
theorem markerOf_nextMarker {marker : Str} (hr : (log.listing (pageRequest pre marker)).isTruncated = true) :
    ∃ z, (page (markerOf marker) 1000 (log.entries pre)).getLast? = some z ∧
      markerOf (log.listing (pageRequest pre marker)).nextMarker = some z := by
  have hne : page (markerOf marker) 1000 (log.entries pre) ≠ [] := page_ne_nil (Nat.succ_pos _) hr
  have hz := List.getLast?_eq_some_getLast hne
  have hnext : (log.listing (pageRequest pre marker)).nextMarker =
      (page (markerOf marker) 1000 (log.entries pre)).getLast hne := congrArg (Option.getD · []) hz
  refine ⟨_, hz, ?_⟩
  rw [hnext]
  exact if_neg (entries_ne_nil (mem_of_mem_page (List.getLast_mem hne)))

theorem after_nextMarker {marker : Str} (hr : (log.listing (pageRequest pre marker)).isTruncated = true) :
    e ∈ after (markerOf marker) (log.entries pre) ↔ e ∈ page (markerOf marker) 1000 (log.entries pre) ∨
      e ∈ after (markerOf (log.listing (pageRequest pre marker)).nextMarker) (log.entries pre) := by
  obtain ⟨z, hz, hmarker⟩ := markerOf_nextMarker hr
  rw [hmarker]
  exact mem_after_page entries_sorted hz

/-- Fewer entries come after a page than after the marker of its request. -/
theorem length_after_nextMarker {marker : Str} (hr : (log.listing (pageRequest pre marker)).isTruncated = true) :
    (after (markerOf (log.listing (pageRequest pre marker)).nextMarker) (log.entries pre)).length <
      (after (markerOf marker) (log.entries pre)).length := by
  obtain ⟨z, hz, hmarker⟩ := markerOf_nextMarker hr
  rw [hmarker]
  exact length_after_lt (List.mem_of_mem_take (List.mem_of_getLast? hz))

/-- A listing depends on the bucket alone. -/
theorem entries_congr {log' : Log} (h : log'.bucket = log.bucket) : log'.entries pre = log.entries pre := by
  refine entries_sorted.eq_of_mem_iff entries_sorted fun e => ?_
  rw [mem_entries, mem_entries, h]

theorem s3Object_congr {log' : Log} (h : log'.bucket = log.bucket) : log'.s3Object = log.s3Object := by
  funext key
  rw [s3Object, h, s3Object]

/-- The pages from a marker on show the entries after it. -/
theorem pages_after {log' : Log} {marker : Str} {n : Nat} {contents : List S3Object} {commonPrefixes : List Str}
    (h : client.Pages (fun t t' => t'.bucket = t.bucket) pre log marker n contents commonPrefixes log') :
    (∀ e, (∃ o ∈ contents, o.key = e) ↔ e ∈ after (markerOf marker) (log.entries pre) ∧ isPrefix pre e = false) ∧
    (∀ e, e ∈ commonPrefixes ↔ e ∈ after (markerOf marker) (log.entries pre) ∧ isPrefix pre e = true) ∧
    ∀ o ∈ contents, o = log.s3Object o.key := by
  induction h with
  | last h hr =>
    cases h
    refine ⟨fun e => ?_, fun e => ?_, fun o => contents_object⟩
    · rw [mem_page_keys]
      exact and_congr_left fun _ => mem_page_last hr
    · rw [mem_commonPrefixes]
      exact and_congr_left fun _ => mem_page_last hr
  | more h hr he rest ih =>
    cases h
    rw [entries_congr he, s3Object_congr he] at ih
    obtain ⟨ih₁, ih₂, ih₃⟩ := ih
    refine ⟨fun e => ?_, fun e => ?_, fun o ho => ?_⟩
    · rw [after_nextMarker hr, or_and_right, ← mem_page_keys, ← ih₁]
      simp only [List.mem_append, or_and_right, exists_or]
    · rw [after_nextMarker hr, or_and_right, ← ih₂, List.mem_append, mem_commonPrefixes]
      rfl
    · rcases List.mem_append.mp ho with ho | ho
      · exact contents_object ho
      · exact ih₃ o ho

theorem pages_listing {log' : Log} {n : Nat} {contents : List S3Object} {commonPrefixes : List Str}
    (h : client.Pages (fun t t' => t'.bucket = t.bucket) pre log [] n contents commonPrefixes log') :
    log.bucket.Listing pre contents commonPrefixes := by
  obtain ⟨hkeys, hprefixes, hobj⟩ := pages_after h
  have hstart : after (markerOf []) (log.entries pre) = log.entries pre := after_none
  rw [hstart] at hkeys hprefixes
  refine ⟨fun key => ?_, fun o ho body hb => ?_, fun p => ?_⟩
  · rw [hkeys, mem_entries]
    constructor
    · rintro ⟨⟨-, h⟩ | ⟨hp', -⟩, hp⟩
      · exact h
      · rw [hp] at hp'
        cases hp'
    · rintro ⟨n, rfl, hn, hk⟩
      have hp : isPrefix pre (pre ++ n) = false := by simpa [isPrefix] using hn
      exact ⟨.inl ⟨hp, n, rfl, hn, hk⟩, hp⟩
  · rw [hobj o ho]
    simp [s3Object, hb]
  · rw [hprefixes, mem_entries]
    constructor
    · rintro ⟨⟨hp', -⟩ | ⟨-, h⟩, hp⟩
      · rw [hp] at hp'
        cases hp'
      · exact h
    · rintro ⟨n, rfl, hn, hk⟩
      have hp : isPrefix pre (pre ++ n ++ slash) = true := by simp [isPrefix, slash]
      exact ⟨.inr ⟨hp, n, rfl, hn, hk⟩, hp⟩

theorem bucket_append (hkey : key ≠ []) (c : StorCall × Bool) :
    Log.bucket (log ++ [c]) key = objectFrom key log (log.bucket key) [c] := by
  rw [bucket, if_neg hkey, object_append, bucket, if_neg hkey]

theorem bucket_nil : log.bucket [] = none := if_pos rfl

theorem bucket_putFile {body : List Byte} (hkey : key ≠ []) :
    Log.bucket (log ++ [(.putFile key body, true)]) = log.bucket.put key body := by
  funext k
  by_cases hk : k = []
  · rw [hk, bucket_nil, Bucket.put, Function.update_of_ne (Ne.symm hkey), bucket_nil]
  · rw [bucket_append hk, Bucket.put, Function.update_apply]
    simp [objectFrom, eq_comm]

theorem bucket_deleteFile : Log.bucket (log ++ [(.deleteFile key, true)]) = log.bucket.delete key := by
  funext k
  by_cases hk : k = []
  · rw [hk, bucket_nil, Bucket.delete, Function.update_apply, bucket_nil, ite_self]
  · rw [bucket_append hk, Bucket.delete, Function.update_apply]
    simp [objectFrom, eq_comm]

/-- What the documentation of S3 promises holds of the client over a log. -/
theorem client_serves : client.Serves Log.bucket where
  noEmptyKey _ := bucket_nil
  head t key body h := ⟨{ contentLength := body.length, lastModified := 0 }, t, by simp only [client, h], rfl, rfl⟩
  headNone t key h := ⟨[], t, by simp only [client, h], rfl⟩
  list t req _ := ⟨_, t, rfl, rfl, partOfListing req⟩
  pages _ _ _ _ _ _ h := pages_listing h
  put _ _ _ hkey := ⟨_, rfl, bucket_putFile hkey⟩
  delete _ _ := ⟨_, rfl, bucket_deleteFile⟩

/-- Its uploads are those of a policy that refuses nothing. -/
theorem client_upload : (s3Stor client).toUploadStor = (Policy.s3 fun _ => false).stor := rfl

/-! ### One key -/

/-- A bucket with the one key `key`. -/
def holding (key : Str) : Log := [(.putFile key [], true)]

theorem bucket_holding {key k : Str} (h : (holding key).bucket.Holds k) : k = key := by
  unfold Bucket.Holds Log.bucket at h
  split at h
  · cases h
  · by_contra hne
    simp [holding, Log.object, Log.objectFrom, Ne.symm hne] at h

end Log

end Catfs
