import Catfs.Theorems.Handles
import Catfs.Theorems.LogClient

/-! # Every request keeps every handle

`Handles` holds in every state that a history leads to: each handle that was not released holds exactly the
data of its accepted writes, and no two of them share an upload. -/

namespace Catfs

open Lib SequenceWriter MetaImpl
open EStateM (Result)

variable {P : Policy} {st : Stor Log} {fs : CatFS Log} {evs : List FileEvent} {hno hno' : HandleID} {file : OpenFile}
  {w : SequenceWriter} {log new : Log} {acc : List Byte}

/-! ### Calls for other uploads -/

/-- A part of the upload `id`. -/
def StorCall.PartOf (id : Str) : StorCall → Prop
  | .mput _ i _ _ => i = id
  | _ => False

theorem StorCall.OfUpload.not_partOf {c : StorCall} {path id id' : Str} (h : c.OfUpload path id) (hne : id ≠ id') :
    ¬ c.PartOf id' := by
  cases c with
  | mput k i n body => exact fun hi => hne (h.2.symm.trans hi)
  | _ => exact fun hi => hi

theorem Log.parts_of_none {id : Str} (h : ∀ c ∈ new, ¬ c.1.PartOf id) : Log.parts new id = [] := by
  rw [Log.parts, List.filterMap_eq_nil_iff]
  rintro ⟨c, b⟩ hc
  cases c with
  | mput key i n body =>
    have : i ≠ id := h _ hc
    cases b <;> simp [this]
  | _ => rfl

/-- What others send leaves a handle as it is. -/
theorem Staged.frame (h : Staged P w log acc) (hnew : w.uptype = .MPUT → ∀ c ∈ new, ¬ c.1.PartOf w.mputCtx.uploadId) :
    Staged P w (log ++ new) acc := by
  cases h with
  | put hup hsize hbuf hwoff => exact .put hup hsize hbuf hwoff
  | mput hup hbig hid hnum hp hwf hroom hpos hacc =>
    have hparts : Log.parts (log ++ new) w.mputCtx.uploadId = log.parts w.mputCtx.uploadId := by
      rw [Log.parts_append, Log.parts_of_none (hnew hup), List.append_nil]
    obtain ⟨k, hk, he⟩ := hid
    refine .mput hup hbig ⟨k, ?_, he⟩ (by rw [hparts, hnum]) hp hwf hroom hpos (by rw [hparts, hacc])
    rw [List.length_append]
    exact Nat.lt_add_right _ hk

/-! ### The invariant -/

/-- A handle that was not released. -/
structure Live (P : Policy) (log : Log) (file : OpenFile) (acc : List Byte) (sent : Log) : Prop where
  staged : Staged P file.writer log acc
  offset : file.writer.nextWriteOffset = acc.length
  path : file.writer.filePath = file.rtfile.path
  nothing : file.writer.uptype = .PUT → sent = []
  own : ∀ c ∈ sent, c.1.OfUpload file.rtfile.path file.writer.mputCtx.uploadId ∧ c.2 = true

structure Handles (P : Policy) (fs : CatFS Log) (evs : List FileEvent) : Prop where
  cache : fs.world.cache.Inv
  issued : Issued P fs.world.stor
  opened : ∀ hno file, fs.openFiles hno = some file →
    hno < fs.nextHandleId ∧ ∃ a, fs.world.cache.lookup file.ino = some a
  live : ∀ hno file, fs.openFiles hno = some file → ¬ Released hno evs →
    Live P fs.world.stor file (acceptedOn hno evs) (sentBy hno evs)
  apart : ∀ hno hno' file file', hno ≠ hno' → fs.openFiles hno = some file → fs.openFiles hno' = some file' →
    ¬ Released hno evs → ¬ Released hno' evs → file.writer.uptype = .MPUT → file'.writer.uptype = .MPUT →
    file.writer.mputCtx.uploadId ≠ file'.writer.mputCtx.uploadId
  unopened : ∀ hno, fs.openFiles hno = none → acceptedOn hno evs = [] ∧ sentBy hno evs = []

theorem Handles.mount {cache : LocalMemMeta} {now : Timespec} {garbage : Garbage} (h : cache.Inv) :
    Handles P (.mount cache now garbage) [] where
  cache := h
  issued := fun _ _ _ _ _ hc => by cases hc
  opened _ _ hf := by cases hf
  live _ _ hf := by cases hf
  apart _ _ _ _ _ hf := by cases hf
  unopened _ _ := ⟨rfl, rfl⟩

/-! ### One more event -/

section Event
variable {e : FileEvent}

theorem acceptedOn_append : acceptedOn hno (evs ++ [e]) = acceptedOn hno evs ++ acceptedOn hno [e] := by
  simp [acceptedOn, List.flatMap_append]

theorem sentBy_append : sentBy hno (evs ++ [e]) = sentBy hno evs ++ sentBy hno [e] := by
  simp [sentBy, List.flatMap_append]

theorem released_append : Released hno (evs ++ [e]) ↔ Released hno evs ∨ e.Releases hno := by
  simp [Released, or_and_right, exists_or]

theorem acceptedOn_other (h : ¬ e.req.On hno) : acceptedOn hno [e] = [] := by
  obtain ⟨r, ok, calls⟩ := e
  cases r with
  | writefile h' off data =>
    have : h' ≠ hno := h
    simp [acceptedOn, this]
  | _ => simp [acceptedOn]

theorem sentBy_other (h : ¬ e.req.On hno) : sentBy hno [e] = [] := by
  simp [sentBy, h]

theorem sentBy_own (h : e.req.On hno) : sentBy hno [e] = e.calls := by
  simp [sentBy, h]

end Event

/-- Another handle's live state after `new` was sent. -/
theorem Live.frame {sent : Log} (h : Live P log file acc sent)
    (hnew : file.writer.uptype = .MPUT → ∀ c ∈ new, ¬ c.1.PartOf file.writer.mputCtx.uploadId) :
    Live P (log ++ new) file acc sent :=
  ⟨h.staged.frame hnew, h.offset, h.path, h.nothing, h.own⟩

theorem Issued.append (h : Issued P log)
    (hnew : ∀ c ∈ new, ∀ i, c.1.PartOf i → ∃ k < log.length, i = P.uploadId k) : Issued P (log ++ new) := by
  have hlt : ∀ k < log.length, k < (log ++ new).length := fun k hk => by
    rw [List.length_append]
    exact Nat.lt_add_right _ hk
  intro key i n body b hm
  rcases List.mem_append.mp hm with hm | hm
  · obtain ⟨k, hk, rfl⟩ := h _ _ _ _ _ hm
    exact ⟨k, hlt k hk, rfl⟩
  · obtain ⟨k, hk, hi⟩ := hnew _ hm i rfl
    exact ⟨k, hlt k hk, hi⟩

/-- The id of a live upload was given out before. -/
theorem Staged.upload_issued (h : Staged P w log acc) (hup : w.uptype = .MPUT) :
    ∃ k < log.length, w.mputCtx.uploadId = P.uploadId k := by
  cases h with
  | put hup' => rw [hup] at hup'; cases hup'
  | mput _ _ hid => exact hid

/-! ### The steps -/

theorem Live.of_same {log : Log} {file' : OpenFile} {sent : Log} (h : Live P log file acc sent)
    (hw : file'.writer = file.writer) (hp : file'.rtfile.path = file.rtfile.path) : Live P log file' acc sent :=
  ⟨hw ▸ h.staged, hw ▸ h.offset, by rw [hw, hp, h.path], hw ▸ h.nothing, by rw [hw, hp]; exact h.own⟩

/-- A request that touches no writer and sends nothing. -/
theorem Handles.idle (h : Handles P fs evs) {fs' : CatFS Log} {e : FileEvent} (hworld : fs'.world = fs.world)
    (hnext : fs'.nextHandleId = fs.nextHandleId)
    (hfiles : ∀ hno file', fs'.openFiles hno = some file' → ∃ file, fs.openFiles hno = some file ∧
      file'.writer = file.writer ∧ file'.rtfile.path = file.rtfile.path ∧ file'.ino = file.ino)
    (hnone : ∀ hno, fs'.openFiles hno = none → fs.openFiles hno = none) (hacc : ∀ hno, acceptedOn hno [e] = [])
    (hcalls : e.calls = []) : Handles P fs' (evs ++ [e]) := by
  have hsent : ∀ hno, sentBy hno [e] = [] := fun hno => by simp [sentBy, hcalls]
  refine ⟨hworld ▸ h.cache, hworld ▸ h.issued, ?_, ?_, ?_, ?_⟩
  · intro hno file' hf'
    obtain ⟨file, hf, -, -, hino⟩ := hfiles _ _ hf'
    rw [hworld, hnext, hino]
    exact h.opened hno file hf
  · intro hno file' hf' hrel
    obtain ⟨file, hf, hw, hp, -⟩ := hfiles _ _ hf'
    rw [hworld, acceptedOn_append, sentBy_append, hacc, hsent, List.append_nil, List.append_nil]
    exact (h.live hno file hf fun hr => hrel (released_append.mpr (.inl hr))).of_same hw hp
  · intro hno hno' file file' hne hf hf' hrel hrel' hup hup'
    obtain ⟨f, hf, hw, -, -⟩ := hfiles _ _ hf
    obtain ⟨f', hf', hw', -, -⟩ := hfiles _ _ hf'
    rw [hw] at hup ⊢
    rw [hw'] at hup' ⊢
    exact h.apart hno hno' f f' hne hf hf' (fun hr => hrel (released_append.mpr (.inl hr)))
      (fun hr => hrel' (released_append.mpr (.inl hr))) hup hup'
  · intro hno hn
    rw [acceptedOn_append, sentBy_append, hacc, hsent, List.append_nil, List.append_nil]
    exact h.unopened hno (hnone hno hn)

/-- What an updated table holds is the new entry or one it held elsewhere. -/
theorem of_update_some {β : Type} {files : HandleID → Option β} {h h' : HandleID} {f f' : β}
    (hf : Function.update files h (some f) h' = some f') : (h' = h ∧ f' = f) ∨ (h' ≠ h ∧ files h' = some f') := by
  by_cases hh : h' = h
  · rw [hh, Function.update_self] at hf
    exact .inl ⟨hh, (Option.some.inj hf).symm⟩
  · rw [Function.update_of_ne hh] at hf
    exact .inr ⟨hh, hf⟩

/-- A new handle holds nothing. -/
theorem Handles.open (h : Handles P fs evs) {e : FileEvent} {a : Addr} {path : Str} {size : Nat} {ino : InodeID}
    {hasWrote : Bool} (ha : fs.world.cache.lookup ino = some a) (hacc : ∀ hno, acceptedOn hno [e] = [])
    (hcalls : e.calls = []) :
    Handles P (CatFS.setFile { fs with nextHandleId := fs.nextHandleId + 1 } fs.nextHandleId
      (.new ino fs.nextHandleId { path, size } hasWrote)) (evs ++ [e]) := by
  have hsent : ∀ hno, sentBy hno [e] = [] := fun hno => by simp [sentBy, hcalls]
  have hfiles : ∀ hno file', Function.update fs.openFiles fs.nextHandleId
      (some (OpenFile.new ino fs.nextHandleId { path, size } hasWrote)) hno = some file' →
      (hno = fs.nextHandleId ∧ file' = .new ino fs.nextHandleId { path, size } hasWrote) ∨ fs.openFiles hno = some file' :=
    fun hno file' hf => (of_update_some hf).imp_right And.right
  have hnone : fs.openFiles fs.nextHandleId = none := by
    cases hf : fs.openFiles fs.nextHandleId with
    | none => rfl
    | some file => exact absurd (h.opened _ _ hf).1 (Nat.lt_irrefl _)
  refine ⟨h.cache, h.issued, ?_, ?_, ?_, ?_⟩
  · intro hno file' hf
    rcases hfiles _ _ hf with ⟨rfl, rfl⟩ | hf
    · exact ⟨Nat.lt_succ_self _, a, ha⟩
    · obtain ⟨hlt, ha'⟩ := h.opened _ _ hf
      exact ⟨Nat.lt_succ_of_lt hlt, ha'⟩
  · intro hno file' hf hrel
    rw [acceptedOn_append, sentBy_append, hacc, hsent, List.append_nil, List.append_nil]
    rcases hfiles _ _ hf with ⟨rfl, rfl⟩ | hf
    · rw [(h.unopened _ hnone).1, (h.unopened _ hnone).2]
      exact ⟨.new, rfl, rfl, fun _ => rfl, nofun⟩
    · exact h.live hno file' hf fun hr => hrel (released_append.mpr (.inl hr))
  · intro hno hno' file file' hne hf hf' hrel hrel' hup hup'
    rcases hfiles _ _ hf with ⟨rfl, rfl⟩ | hf
    · cases hup
    · rcases hfiles _ _ hf' with ⟨rfl, rfl⟩ | hf'
      · cases hup'
      · exact h.apart hno hno' file file' hne hf hf' (fun hr => hrel (released_append.mpr (.inl hr)))
          (fun hr => hrel' (released_append.mpr (.inl hr))) hup hup'
  · intro hno hn
    rw [acceptedOn_append, sentBy_append, hacc, hsent, List.append_nil, List.append_nil]
    refine h.unopened hno ?_
    simp only [CatFS.setFile, Function.update_apply] at hn
    split at hn
    · cases hn
    · exact hn

/-- The upload that a write uses is no other live handle's. -/
theorem Handles.upload_apart (h : Handles P fs evs) (hf : fs.openFiles hno = some file) (hlive : ¬ Released hno evs)
    {log' : Log} (hs : Sends P file.writer fs.world.stor w log') (hup : w.uptype = .MPUT) {file' : OpenFile}
    (hne : hno' ≠ hno) (hf' : fs.openFiles hno' = some file') (hlive' : ¬ Released hno' evs)
    (hup' : file'.writer.uptype = .MPUT) : w.mputCtx.uploadId ≠ file'.writer.mputCtx.uploadId := by
  rcases hs.mode with ⟨hsame, hid⟩ | ⟨-, -, k, hk, -, hid⟩
  · rw [hid]
    exact h.apart _ _ _ _ hne.symm hf hf' hlive hlive' (hsame ▸ hup) hup'
  · -- A new id comes after all that were given out.
    obtain ⟨k', hk', hid'⟩ := (h.live _ _ hf' hlive').staged.upload_issued hup'
    rw [hid, hid']
    intro he
    rw [P.uploadId_inj he] at hk
    exact Nat.not_le.mpr hk' hk

/-- A change of one handle, which sends `new`, is no change of another. -/
theorem Handles.others (h : Handles P fs evs) {e : FileEvent} {log' new : Log} (hlog : log' = fs.world.stor ++ new)
    (hon : ∀ hno', hno' ≠ hno → ¬ e.req.On hno')
    (hnew : ∀ hno' file', hno' ≠ hno → fs.openFiles hno' = some file' → ¬ Released hno' evs →
      file'.writer.uptype = .MPUT → ∀ c ∈ new, ¬ c.1.PartOf file'.writer.mputCtx.uploadId)
    {file' : OpenFile} (hne : hno' ≠ hno) (hf' : fs.openFiles hno' = some file') (hrel : ¬ Released hno' (evs ++ [e])) :
    Live P log' file' (acceptedOn hno' (evs ++ [e])) (sentBy hno' (evs ++ [e])) := by
  have hlive' : ¬ Released hno' evs := fun hr => hrel (released_append.mpr (.inl hr))
  rw [acceptedOn_append, sentBy_append, acceptedOn_other (hon _ hne), sentBy_other (hon _ hne), List.append_nil,
    List.append_nil, hlog]
  exact (h.live _ _ hf' hlive').frame (hnew _ _ hne hf' hlive')

theorem Handles.write (h : Handles P fs evs) (hf : fs.openFiles hno = some file) (hlive : ¬ Released hno evs)
    {e : FileEvent} {off : Nat} {data : List Byte} {log' : Log} {cache : LocalMemMeta}
    (he : e = { req := .writefile hno off data, ok := true, calls := log'.drop fs.world.stor.length })
    (hstaged : Staged P w log' (acceptedOn hno evs ++ data))
    (hoff : w.nextWriteOffset = (acceptedOn hno evs ++ data).length) (hs : Sends P file.writer fs.world.stor w log')
    (hissued : Issued P log') (hcache : cache.Inv) (hgrow : LocalMemMeta.Grow fs.world.cache cache) :
    Handles P (((fs.setFile hno (file.wrote w)).setStor log').setCache cache) (evs ++ [e]) := by
  have hwas := h.live hno file hf hlive
  obtain ⟨new, hlog, hnew, hput⟩ := hs.grows
  have hcalls : e.calls = new := by rw [he, hlog, List.drop_left]
  have hon : e.req.On hno := by rw [he]; rfl
  have hother : ∀ hno', hno' ≠ hno → ¬ e.req.On hno' := fun hno' hne => by
    rw [he]
    exact fun h => hne h.symm
  have hfiles : ∀ hno' file', Function.update fs.openFiles hno (some (file.wrote w)) hno' = some file' →
      (hno' = hno ∧ file' = file.wrote w) ∨ (hno' ≠ hno ∧ fs.openFiles hno' = some file') :=
    fun hno' file' hf' => of_update_some hf'
  have hapart : ∀ hno' file', hno' ≠ hno → fs.openFiles hno' = some file' → ¬ Released hno' evs →
      file'.writer.uptype = .MPUT → ∀ c ∈ new, ¬ c.1.PartOf file'.writer.mputCtx.uploadId := by
    intro hno' file' hne hf' hlive' hup' c hc
    cases hup : w.uptype with
    | PUT =>
      rw [hput hup] at hc
      cases hc
    | MPUT => exact (hnew c hc).1.not_partOf (h.upload_apart hf hlive hs hup hne hf' hlive' hup')
  refine ⟨hcache, hissued, ?_, ?_, ?_, ?_⟩
  · intro hno' file' hf'
    rcases hfiles _ _ hf' with ⟨rfl, rfl⟩ | ⟨hne, hf'⟩
    · obtain ⟨hlt, a, ha⟩ := h.opened _ _ hf
      exact ⟨hlt, a, hgrow.index _ _ (by rw [OpenFile.wrote_ino]; exact ha)⟩
    · obtain ⟨hlt, a, ha⟩ := h.opened _ _ hf'
      exact ⟨hlt, a, hgrow.index _ _ ha⟩
  · intro hno' file' hf' hrel
    rcases hfiles _ _ hf' with ⟨rfl, rfl⟩ | ⟨hne, hf'⟩
    · have hacc : acceptedOn hno' [e] = data := by simp [acceptedOn, he]
      rw [acceptedOn_append, sentBy_append, hacc, sentBy_own hon, hcalls]
      -- What was sent before was sent for the same upload, if anything was.
      have hsame : file.writer.uptype = .PUT ∨ w.mputCtx.uploadId = file.writer.mputCtx.uploadId := by
        rcases hs.mode with ⟨-, hid⟩ | ⟨hup, -⟩
        · exact .inr hid
        · exact .inl hup
      refine ⟨hstaged, hoff, hs.path.trans hwas.path, ?_, ?_⟩
      · intro hup
        rcases hs.mode with ⟨hsame, -⟩ | ⟨-, hup', -⟩
        · rw [hwas.nothing (hsame ▸ hup), hput hup]
          rfl
        · cases hup.symm.trans hup'
      · intro c hc
        rcases List.mem_append.mp hc with hc | hc
        · rcases hsame with hup | hid
          · rw [hwas.nothing hup] at hc
            cases hc
          · exact hid ▸ hwas.own c hc
        · exact hwas.path ▸ hnew c hc
    · exact h.others hlog hother hapart hne hf' hrel
  · intro h₁ h₂ f₁ f₂ hne hf₁ hf₂ hrel₁ hrel₂ hup₁ hup₂
    have hr₁ : ¬ Released h₁ evs := fun hr => hrel₁ (released_append.mpr (.inl hr))
    have hr₂ : ¬ Released h₂ evs := fun hr => hrel₂ (released_append.mpr (.inl hr))
    rcases hfiles _ _ hf₁ with ⟨rfl, rfl⟩ | ⟨hne₁, hf₁'⟩
    · rcases hfiles _ _ hf₂ with ⟨rfl, rfl⟩ | ⟨hne₂, hf₂'⟩
      · exact absurd rfl hne
      · exact h.upload_apart hf hlive hs hup₁ hne₂ hf₂' hr₂ hup₂
    · rcases hfiles _ _ hf₂ with ⟨rfl, rfl⟩ | ⟨hne₂, hf₂'⟩
      · exact (h.upload_apart hf hlive hs hup₂ hne₁ hf₁' hr₁ hup₁).symm
      · exact h.apart _ _ _ _ hne hf₁' hf₂' hr₁ hr₂ hup₁ hup₂
  · intro hno' hn
    have hne : hno' ≠ hno := by
      rintro rfl
      simp [CatFS.setCache] at hn
    have hn' : fs.openFiles hno' = none := by
      simpa [CatFS.setCache, CatFS.setStor, CatFS.setFile, hne] using hn
    rw [acceptedOn_append, sentBy_append, acceptedOn_other (hother _ hne), sentBy_other (hother _ hne), List.append_nil,
      List.append_nil]
    exact h.unopened _ hn'

/-- The calls of a release are those of the handle's own upload, and none of another's. -/
theorem Delivered.grows {log' : Log} (h : Delivered w log acc log') : ∃ new, log' = log ++ new ∧
    ∀ c ∈ new, c.1.OfUpload w.filePath w.mputCtx.uploadId ∧ w.uptype = .MPUT ∨ ∀ i, ¬ c.1.PartOf i := by
  cases h with
  | nothing => exact ⟨[], by simp⟩
  | put =>
    refine ⟨_, rfl, fun c hc => .inr ?_⟩
    rw [List.mem_singleton] at hc
    subst hc
    exact fun i hi => hi
  | upload hup _ hlast _ =>
    refine ⟨_, List.append_assoc .., fun c hc => ?_⟩
    rcases List.mem_append.mp hc with hc | hc
    · exact .inl ⟨(hlast c hc).1, hup⟩
    · rw [List.mem_singleton] at hc
      subst hc
      exact .inr fun i hi => hi

theorem Handles.release (h : Handles P fs evs) (hf : fs.openFiles hno = some file) (hlive : ¬ Released hno evs)
    {e : FileEvent} {log' : Log} {file' : OpenFile} (he : e.Releases hno)
    (hd : Delivered file.writer fs.world.stor (acceptedOn hno evs) log') (hino : file'.ino = file.ino) :
    Handles P ((fs.setFile hno file').setStor log') (evs ++ [e]) := by
  have hwas := h.live hno file hf hlive
  obtain ⟨new, hlog, hnew⟩ := hd.grows
  have hother : ∀ hno', hno' ≠ hno → ¬ e.req.On hno' := fun hno' hne => by
    rw [he.1]
    exact fun h => hne h.symm
  have hreleased : Released hno (evs ++ [e]) := released_append.mpr (.inr he)
  have hfiles : ∀ hno' f, Function.update fs.openFiles hno (some file') hno' = some f →
      (hno' = hno ∧ f = file') ∨ (hno' ≠ hno ∧ fs.openFiles hno' = some f) :=
    fun hno' f hf' => of_update_some hf'
  refine ⟨h.cache, ?_, ?_, ?_, ?_, ?_⟩
  · show Issued P log'
    rw [hlog]
    refine h.issued.append fun c hc i hi => ?_
    rcases hnew c hc with ⟨hown, hup⟩ | hnone
    · obtain ⟨k, hk, hid⟩ := hwas.staged.upload_issued hup
      refine ⟨k, hk, ?_⟩
      rw [← hid]
      exact Classical.byContradiction fun hne => hown.not_partOf (Ne.symm hne) hi
    · exact absurd hi (hnone i)
  · intro hno' f hf'
    rcases hfiles _ _ hf' with ⟨rfl, rfl⟩ | ⟨hne, hf'⟩
    · rw [hino]
      exact h.opened _ _ hf
    · exact h.opened _ _ hf'
  · intro hno' f hf' hrel
    rcases hfiles _ _ hf' with ⟨rfl, rfl⟩ | ⟨hne, hf'⟩
    · exact absurd hreleased hrel
    · refine h.others hlog hother ?_ hne hf' hrel
      intro hno'' file'' hne' hf'' hlive' hup' c hc
      rcases hnew c hc with ⟨hc, hup⟩ | hc
      · exact hc.not_partOf (h.apart _ _ _ _ hne'.symm hf hf'' hlive hlive' hup hup')
      · exact hc _
  · intro h₁ h₂ f₁ f₂ hne hf₁ hf₂ hrel₁ hrel₂ hup₁ hup₂
    rcases hfiles _ _ hf₁ with ⟨rfl, rfl⟩ | ⟨hne₁, hf₁⟩
    · exact absurd hreleased hrel₁
    · rcases hfiles _ _ hf₂ with ⟨rfl, rfl⟩ | ⟨hne₂, hf₂⟩
      · exact absurd hreleased hrel₂
      · exact h.apart _ _ _ _ hne hf₁ hf₂ (fun hr => hrel₁ (released_append.mpr (.inl hr)))
          (fun hr => hrel₂ (released_append.mpr (.inl hr))) hup₁ hup₂
  · intro hno' hn
    have hne : hno' ≠ hno := by
      rintro rfl
      simp at hn
    have hn' : fs.openFiles hno' = none := by
      simpa [CatFS.setStor, CatFS.setFile, hne] using hn
    rw [acceptedOn_append, sentBy_append, acceptedOn_other (hother _ hne), sentBy_other (hother _ hne), List.append_nil,
      List.append_nil]
    exact h.unopened _ hn'

/-! ### Every request -/

theorem FileReq.exec_writefile_ok {off n : Nat} {data : List Byte} {fs' : CatFS Log}
    (h : CatFS.writefile st hno off data fs = .ok n fs') :
    (FileReq.writefile hno off data).exec st fs = .ok () fs' := by
  rw [exec, bind_ok h]
  rfl

theorem FileReq.exec_writefile_error {off : Nat} {data : List Byte} {e : Err} {fs' : CatFS Log}
    (h : CatFS.writefile st hno off data fs = .error e fs') :
    (FileReq.writefile hno off data).exec st fs = .error e fs' := by
  rw [exec, bind_error h]

/-! Requests on what is not known leave the state as it is. -/

theorem FileReq.exec_openfile_none {ino : InodeID} {hasWrote : Bool} (ha : fs.world.cache.lookup ino = none) :
    (FileReq.openfile ino hasWrote).exec st fs = .error .enoent fs := by
  rw [exec, bind_error (CatFS.run_openfile_none ha)]

theorem FileReq.exec_writefile_none {off : Nat} {data : List Byte} (hf : fs.openFiles hno = none) :
    (FileReq.writefile hno off data).exec st fs = .error (.int ENOENT) fs := by
  refine exec_writefile_error ?_
  rw [CatFS.writefile, bind_error (CatFS.run_openFile_none hf)]

theorem FileReq.exec_releaseFile_none (hf : fs.openFiles hno = none) :
    (FileReq.releaseFile hno).exec st fs = .error (.int ENOENT) fs := by
  rw [exec, CatFS.releaseFile, bind_error (CatFS.run_openFile_none hf)]

theorem FileReq.event_ok {r : FileReq} {fs' : CatFS Log} (h : r.exec st fs = .ok () fs') :
    r.event st fs = ⟨r, true, fs'.world.stor.drop fs.world.stor.length⟩ := by
  rw [event, h]
  rfl

/-- A request that threw without a call of the store. -/
theorem FileReq.event_error {r : FileReq} {e : Err} {fs' : CatFS Log} (h : r.exec st fs = .error e fs')
    (hs : fs'.world.stor = fs.world.stor) : r.event st fs = ⟨r, false, []⟩ := by
  rw [event, h]
  simp [returned, hs]

/-- The step lemma of `openfile`. -/
theorem Handles.openfile_step (h : Handles P fs evs) {ino : InodeID} {hasWrote : Bool} :
    Handles P (endState ((FileReq.openfile ino hasWrote).exec st fs))
      (evs ++ [(FileReq.openfile ino hasWrote).event st fs]) := by
  have hacc : ∀ ok calls hno, acceptedOn hno [⟨.openfile ino hasWrote, ok, calls⟩] = [] := fun _ _ _ => by
    simp [acceptedOn]
  cases ha : fs.world.cache.lookup ino with
  | none =>
    rw [FileReq.event_error (FileReq.exec_openfile_none ha) rfl, FileReq.exec_openfile_none ha]
    exact h.idle rfl rfl (fun _ f hf => ⟨f, hf, rfl, rfl, rfl⟩) (fun _ hn => hn) (hacc _ _) rfl
  | some a =>
    obtain ⟨hlt, hino⟩ := h.cache.indexed _ _ ha
    obtain ⟨path, hpath⟩ := LocalMemMeta.fullPath_some h.cache hlt
    have hexec : (FileReq.openfile ino hasWrote).exec st fs = .ok () (CatFS.setFile
        { fs with nextHandleId := fs.nextHandleId + 1 } fs.nextHandleId
        (.new ino fs.nextHandleId { path, size := (fs.world.cache.heap a).inode.size } hasWrote)) := by
      rw [FileReq.exec, bind_ok (CatFS.run_openfile ha hpath), hino]
      rfl
    rw [FileReq.event_ok hexec, hexec]
    exact h.open ha (hacc _ _) (List.drop_length ..)

theorem Log.joined_mfinish {key id id' : Str} : (log ++ [(StorCall.mfinish key id', true)] : Log).joined id = log.joined id := by
  rw [Log.joined, Log.parts_append]
  simp [Log.joined, Log.parts]

/-- What was sent for a live handle and is sent by its release is what it holds. -/
theorem Delivered.sentExactly {sent log' new : Log} (hd : Delivered file.writer log acc log')
    (hwas : Live P log file acc sent) (hlog : log' = log ++ new) : SentExactly file.rtfile.path acc (sent ++ new) log' := by
  cases hd with
  | nothing hup he =>
    have hnew : new = [] := List.self_eq_append_right.mp hlog
    refine .nothing he ?_
    rw [hwas.nothing hup, hnew, List.append_nil]
  | put hup hne =>
    have hnew := List.append_cancel_left hlog
    refine .put hne ?_ ?_
    · rw [hwas.nothing hup, ← hnew, hwas.path, List.nil_append]
    · rw [← hwas.path]
      exact (Delivered.put hup hne).object hne
  | upload hup hne hlast hjoined =>
    rename_i last
    have hnew : last ++ [(StorCall.mfinish file.writer.filePath file.writer.mputCtx.uploadId, true)] = new := by
      rw [List.append_assoc] at hlog
      exact List.append_cancel_left hlog
    have hj : (log ++ last ++ [(StorCall.mfinish file.writer.filePath file.writer.mputCtx.uploadId, true)] : Log).joined
        file.writer.mputCtx.uploadId = acc := Log.joined_mfinish.trans hjoined
    refine .upload (sent ++ last) hne ?_ ?_ hj ?_
    · rw [← hnew, List.append_assoc, ← hwas.path]
    · intro c hc
      rcases List.mem_append.mp hc with hc | hc
      · exact hwas.own c hc
      · exact hwas.path ▸ hlast c hc
    · rw [← hwas.path]
      exact (Delivered.upload hup hne hlast hjoined).object hne

section Step
variable (hst : st.toUploadStor = P.stor) (hok : ∀ n, P.fails n = false)
include hst hok

/-- A write on a live handle is taken when it continues the data, and refused before any step when it does not. -/
theorem Live.write_cases {log : Log} {sent : Log} (h : Live P log file acc sent) (hissued : Issued P log) {off : Nat}
    {data : List Byte} (hdata : data.length < 2 ^ 31) :
    (off = acc.length ∧ ∃ n w log', (SequenceWriter.write st.toUploadStor off data.length data).run (file.writer, log) =
        .ok n (w, log') ∧ Staged P w log' (acc ++ data) ∧ w.nextWriteOffset = (acc ++ data).length ∧
        Sends P file.writer log w log' ∧ Issued P log') ∨
    (off ≠ acc.length ∧ ∃ e, (SequenceWriter.write st.toUploadStor off data.length data).run (file.writer, log) =
        .error e (file.writer, log)) := by
  by_cases hoff : file.writer.nextWriteOffset = off
  · have hacc : off = acc.length := hoff.symm.trans h.offset
    have hout := write_outcome h.staged h.offset hissued hdata
    rw [← hacc, ← hst] at hout
    generalize (SequenceWriter.write st.toUploadStor off data.length data).run (file.writer, log) = res at hout ⊢
    cases hout with
    | minitFailed _ refused =>
      obtain ⟨n, hn⟩ := refused
      rw [hok] at hn
      cases hn
    | mputFailed _ _ refused =>
      obtain ⟨n, hn⟩ := refused
      rw [hok] at hn
      cases hn
    | accepted staged offset sends issued => exact .inl ⟨hacc, _, _, _, rfl, staged, offset, sends, issued⟩
  · exact .inr ⟨fun he => hoff (h.offset.trans he.symm), _, run_write_reject data hoff⟩

/-- The step lemma of `writefile`. -/
theorem Handles.writefile_step (h : Handles P fs evs) {off : Nat} {data : List Byte} (hdata : data.length < 2 ^ 31)
    (hlive : ¬ Released hno evs) :
    Handles P (endState ((FileReq.writefile hno off data).exec st fs))
      (evs ++ [(FileReq.writefile hno off data).event st fs]) ∧
    (FileReq.writefile hno off data).Faithful st fs evs := by
  cases hf : fs.openFiles hno with
  | none =>
    have hexec : (FileReq.writefile hno off data).exec st fs = _ := FileReq.exec_writefile_none hf
    refine ⟨?_, fun hsome => by rw [hf] at hsome; cases hsome⟩
    rw [FileReq.event_error hexec rfl, hexec]
    exact h.idle rfl rfl (fun _ f hf => ⟨f, hf, rfl, rfl, rfl⟩) (fun _ hn => hn) (fun _ => by simp [acceptedOn]) rfl
  | some file =>
    have hwas := h.live hno file hf hlive
    obtain ⟨-, a, ha⟩ := h.opened hno file hf
    rcases hwas.write_cases hst hok h.issued hdata with ⟨hacc, n, w, log', hrun, staged, offset, sends, issued⟩ | ⟨hoff, e, hrun⟩
    · have hexec := FileReq.exec_writefile_ok (CatFS.writefile_ok hf ha hrun)
      have hev := FileReq.event_ok hexec
      refine ⟨?_, fun _ => ⟨?_, ?_⟩⟩
      · rw [hev, hexec]
        exact h.write hf hlive rfl staged offset sends issued (h.cache.set LocalMemMeta.Mild.apply)
          (.set LocalMemMeta.Mild.apply)
      · rw [hev]
        exact ⟨fun _ => hacc, fun _ => rfl⟩
      · rw [hev]
        intro hno
        cases hno
    · have hexec := FileReq.exec_writefile_error (CatFS.writefile_error hf hrun)
      have hev := FileReq.event_error hexec rfl
      have hself : { file.beginWrite with writer := file.writer } = file.beginWrite :=
        congrArg (fun w => { file.beginWrite with writer := w }) OpenFile.beginWrite_writer.symm
      have hfiles : ∀ hno', (fs.setFile hno file.beginWrite).openFiles hno' = fs.openFiles hno' ∨
          fs.openFiles hno' = some file ∧ (fs.setFile hno file.beginWrite).openFiles hno' = some file.beginWrite := by
        intro hno'
        simp only [CatFS.setFile, Function.update_apply]
        split
        · rename_i heq
          exact .inr ⟨heq ▸ hf, rfl⟩
        · exact .inl rfl
      rw [hself] at hexec
      refine ⟨?_, fun _ => ⟨?_, fun _ => ?_⟩⟩
      · rw [hev, hexec]
        refine h.idle rfl rfl ?_ ?_ (fun _ => by simp [acceptedOn]) rfl
        · intro hno' f' hf'
          rcases hfiles hno' with heq | ⟨hold, hnew⟩
          · exact ⟨f', heq ▸ hf', rfl, rfl, rfl⟩
          · cases hnew.symm.trans hf'
            exact ⟨file, hold, by simp, by simp, by simp⟩
        · intro hno' hn
          rcases hfiles hno' with heq | ⟨-, hnew⟩
          · exact heq ▸ hn
          · cases hnew.symm.trans hn
      · rw [hev]
        exact ⟨fun hret => absurd hret Bool.false_ne_true, fun he => absurd he hoff⟩
      · rw [hexec]
        refine ⟨rfl, fun hno' => ?_⟩
        rcases hfiles hno' with heq | ⟨hold, hnew⟩
        · exact congrArg _ heq
        · rw [hold]
          exact (congrArg _ hnew).trans (congrArg some OpenFile.beginWrite_writer)

/-- The step lemma of `release_file`. -/
theorem Handles.releaseFile_step (h : Handles P fs evs) (hlive : ¬ Released hno evs) :
    Handles P (endState ((FileReq.releaseFile hno).exec st fs)) (evs ++ [(FileReq.releaseFile hno).event st fs]) ∧
    (FileReq.releaseFile hno).Faithful st fs evs := by
  cases hf : fs.openFiles hno with
  | none =>
    have hexec : (FileReq.releaseFile hno).exec st fs = _ := FileReq.exec_releaseFile_none hf
    refine ⟨?_, fun file hsome => by rw [hf] at hsome; cases hsome⟩
    rw [FileReq.event_error hexec rfl, hexec]
    exact h.idle rfl rfl (fun _ f hf => ⟨f, hf, rfl, rfl, rfl⟩) (fun _ hn => hn) (fun _ => by simp [acceptedOn]) rfl
  | some file =>
    have hwas := h.live hno file hf hlive
    rcases release_outcome hwas.staged hwas.offset with ⟨w', log', hrun, hd, -⟩ | ⟨-, -, -, -, hrefused, -⟩
    · rw [← hst] at hrun
      have hexec : (FileReq.releaseFile hno).exec st fs = .ok () _ := CatFS.releaseFile_ok hf hrun
      have hev := FileReq.event_ok hexec
      obtain ⟨new, hlog, -⟩ := hd.grows
      have hsent : sentBy hno [(FileReq.releaseFile hno).event st fs] = new := by
        rw [sentBy_own (show ((FileReq.releaseFile hno).event st fs).req.On hno from rfl), hev]
        show log'.drop fs.world.stor.length = new
        rw [hlog, List.drop_left]
      refine ⟨?_, fun file' hf' => ?_⟩
      · rw [hev, hexec]
        exact h.release hf hlive ⟨rfl, rfl⟩ hd rfl
      · cases hf.symm.trans hf'
        refine ⟨by rw [hev], ?_⟩
        rw [sentBy_append, hsent, hexec]
        exact hd.sentExactly hwas hlog
    · exact absurd (fun _ _ => hok _) hrefused

theorem Handles.step (h : Handles P fs evs) (r : FileReq) (hlive : ∀ hno, r.On hno → ¬ Released hno evs)
    (hshort : ∀ hno off data, r = .writefile hno off data → data.length < 2 ^ 31) :
    Handles P (endState (r.exec st fs)) (evs ++ [r.event st fs]) ∧ r.Faithful st fs evs := by
  cases r with
  | openfile ino hasWrote => exact ⟨h.openfile_step, trivial⟩
  | writefile hno off data => exact h.writefile_step hst hok (hshort _ _ _ rfl) (hlive _ rfl)
  | releaseFile hno => exact h.releaseFile_step hst hok (hlive _ rfl)

end Step

theorem Orderly.live {pre post : List FileEvent} {e : FileEvent} (h : Orderly (pre ++ [e] ++ post)) :
    ∀ hno, e.req.On hno → ¬ Released hno pre := by
  rintro hno hon ⟨e', he', hr⟩
  rw [List.append_assoc] at h
  exact (List.pairwise_append.mp h.order).2.2 e' he' e (by simp) hno hr hon

theorem Orderly.fits {pre post : List FileEvent} {e : FileEvent} (h : Orderly (pre ++ [e] ++ post)) :
    ∀ hno off data, e.req = .writefile hno off data → data.length < 2 ^ 31 :=
  h.short e (by simp)

theorem Orderly.init {pre post : List FileEvent} (h : Orderly (pre ++ post)) : Orderly pre :=
  ⟨(List.pairwise_append.mp h.order).1, fun e he => h.short e (List.mem_append_left _ he)⟩

section Run
variable (hst : st.toUploadStor = P.stor) (hok : ∀ n, P.fails n = false)
include hst hok

/-- The run lemma. -/
theorem Handles.run (h : Handles P fs evs) (reqs : List FileReq) (ho : Orderly (evs ++ history st fs reqs)) :
    Handles P (runFiles st fs reqs) (evs ++ history st fs reqs) := by
  induction reqs generalizing fs evs with
  | nil => exact (List.append_nil evs).symm ▸ h
  | cons r reqs ih =>
    have hassoc : evs ++ history st fs (r :: reqs) =
        (evs ++ [r.event st fs]) ++ history st (endState (r.exec st fs)) reqs := by
      rw [history, List.append_assoc]
      rfl
    rw [hassoc] at ho ⊢
    exact ih (h.step hst hok r ho.live ho.fits).1 ho

end Run

theorem history_append {reqs : List FileReq} {r : FileReq} :
    history st fs (reqs ++ [r]) = history st fs reqs ++ [r.event st (runFiles st fs reqs)] := by
  induction reqs generalizing fs with
  | nil => rfl
  | cons r' reqs ih => exact congrArg _ ih

/-- On a mount whose store refuses nothing, every request that follows an orderly history is faithful: a write
    is accepted exactly when it continues the handle's data, and a release sends exactly that data. -/
theorem files_faithful (hst : st.toUploadStor = P.stor) (hok : ∀ n, P.fails n = false) {opt : MetaOpt}
    {cache : LocalMemMeta} (hcache : Reachable opt cache) (now : Timespec) (garbage : Garbage) (reqs : List FileReq)
    (r : FileReq) (ho : Orderly (history st (.mount cache now garbage) (reqs ++ [r]))) :
    r.Faithful st (runFiles st (.mount cache now garbage) reqs) (history st (.mount cache now garbage) reqs) := by
  rw [history_append] at ho
  have h := (Handles.mount hcache.inv).run hst hok reqs ho.init
  rw [List.nil_append] at h
  rw [← List.append_nil (_ ++ _)] at ho
  exact (h.step hst hok r ho.live ho.fits).2

/-- A mount where the file `a` was created. -/
def oneFile : LocalMemMeta := (endState (((Request.create ROOT_INODE_ID ['a'] S_IFREG).prog ⟨0, 0, 60⟩ (s3Stor Log.client) 1).run
  ⟨newCache, [], ⟨0, 0⟩, noGarbage⟩)).cache

/-- The file is opened, and three bytes are written to it. -/
def threeBytes : List FileReq := [.openfile 2 false, .writefile 0 0 [1, 2, 3]]

theorem files_faithful_threeBytes :
    ((runFiles (s3Stor Log.client) (.mount oneFile ⟨0, 0⟩ noGarbage) threeBytes).openFiles 0).isSome ∧
    FileReq.Faithful (s3Stor Log.client) (runFiles (s3Stor Log.client) (.mount oneFile ⟨0, 0⟩ noGarbage) threeBytes)
      (history (s3Stor Log.client) (.mount oneFile ⟨0, 0⟩ noGarbage) threeBytes) (.releaseFile 0) := by
  have hcache : Reachable ⟨0, 0, 60⟩ oneFile := .request (.new ⟨0, 0⟩) _ _ _ _ _ _
  refine ⟨by decide +kernel, files_faithful Log.client_upload (fun _ => rfl) hcache ⟨0, 0⟩ noGarbage threeBytes _ ⟨?_, ?_⟩⟩
  · simp [threeBytes, history, FileReq.event, FileEvent.Releases]
  · simp [threeBytes, history, FileReq.event]

end Catfs
