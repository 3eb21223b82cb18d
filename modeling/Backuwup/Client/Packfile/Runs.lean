/-
# The runs of a backup folder

What one step of `managerStep` can do is listed once, in `Stepped`.  Two invariants are derived
from it.

* `Sound` holds in every run, whatever fails and wherever a process ends: every entry on disk
  or in a buffer belongs to a complete packfile, and the queue holds what was added.
* `Accounted` is about the session that is open or was open last: every blob whose call has
  taken it is on disk, in the buffer or in the queue, and on disk after `flush` has returned
  `Ok`.  It holds as long as no write that a call of `add_blob` has triggered loses blobs
  (`KeepsPopped`).  It starts anew with each session, so what an earlier session lost does not
  matter.
-/
import Backuwup.Client.Packfile.Stored
import Backuwup.Lib.Pool

namespace Backuwup.Client

variable {P : Primitives} {keys : KeyManager}

/-! ## 1. What a step does -/

/-- The moves of a call that leave everything else as it is. -/
inductive PcMove (P : Primitives) (keys : KeyManager) (m : Manager) (blob : Blob) :
    ManagerAction → AddPc → AddPc → Prop
  | duplicate (t : ℕ) (nonce : Option BlobNonce) : m.index.isBlobDuplicate blob.hash = true →
      PcMove P keys m blob (.check t nonce) .called (.returned (.ok none))
  | noNonce (t : ℕ) : PcMove P keys m blob (.check t none) .called (.returned (.error .ioError))
  | encryptFails (t : ℕ) (nonce : BlobNonce) : compressEncryptBlob P keys blob nonce = none →
      PcMove P keys m blob (.check t nonce) .called (.returned (.error .cryptoError))
  | encrypts (t : ℕ) (nonce : BlobNonce) (b : BlobEncrypted) :
      compressEncryptBlob P keys blob nonce = some b →
      PcMove P keys m blob (.check t nonce) .called (.encrypted b)
  | triggers (t : ℕ) : PcMove P keys m blob (.trigger t) .queued .overTarget
  | rests (t : ℕ) : PcMove P keys m blob (.trigger t) .queued (.returned (.ok none))
  | locks (t : ℕ) : PcMove P keys m blob (.lock t) .overTarget (.writing false)
  | exceeds (t : ℕ) : PcMove P keys m blob (.unlock t) (.writing true)
      (.returned (.error .exceededBufferLimit))
  | unlocks (t size : ℕ) : PcMove P keys m blob (.unlock t) (.writing false)
      (.returned (.ok (some size)))

/-- Only the steps of a call move it. -/
theorem PcMove.of_call {m : Manager} {blob : Blob} {a : ManagerAction} {before after : AddPc}
    (h : PcMove P keys m blob a before after) :
    ∃ t, (∃ nonce, a = .check t nonce) ∨ a = .trigger t ∨ a = .lock t ∨ a = .unlock t := by
  cases h with
  | duplicate t nonce => exact ⟨t, Or.inl ⟨nonce, rfl⟩⟩
  | noNonce t => exact ⟨t, Or.inl ⟨none, rfl⟩⟩
  | encryptFails t nonce => exact ⟨t, Or.inl ⟨some nonce, rfl⟩⟩
  | encrypts t nonce => exact ⟨t, Or.inl ⟨some nonce, rfl⟩⟩
  | triggers t => exact ⟨t, Or.inr (Or.inl rfl)⟩
  | rests t => exact ⟨t, Or.inr (Or.inl rfl)⟩
  | locks t => exact ⟨t, Or.inr (Or.inr (Or.inl rfl))⟩
  | exceeds t => exact ⟨t, Or.inr (Or.inr (Or.inr rfl))⟩
  | unlocks t size => exact ⟨t, Or.inr (Or.inr (Or.inr rfl))⟩

/-- What each step does. -/
inductive Stepped (P : Primitives) (keys : KeyManager) (w : World) : ManagerAction → World → Prop
  | opened (names : List FileName) (files : Folder) (size : ℕ) (ix : BlobIndex) :
      w.session = none → names.Perm (w.disk.index.map Prod.fst) → files.Perm w.disk.index →
      BlobIndex.new P keys names files = .ok ix →
      Stepped P keys w (.openManager names files size)
        ⟨w.disk, w.past ++ w.calls, [], some ⟨⟨[], ix, size⟩, false⟩, false⟩
  | notOpened (names : List FileName) (files : Folder) (size : ℕ) (e : PackfileError) :
      w.session = none → files.Perm w.disk.index → BlobIndex.new P keys names files = .error e →
      Stepped P keys w (.openManager names files size)
        ⟨w.disk, w.past ++ w.calls, [], none, false⟩
  | added (s : Session) (blob : Blob) (pc : AddPc) : w.session = some s → s.flushing = false →
      (pc = .returned (.error .blobTooLarge) ∧ blobMaxUncompressedSize < blob.data.length ∨
        pc = .called ∧ blob.data.length ≤ blobMaxUncompressedSize) →
      Stepped P keys w (.addBlob blob) { w with calls := w.calls ++ [⟨blob, pc⟩] }
  | moved (s : Session) (t : ℕ) (c : AddCall) (a : ManagerAction) (pc : AddPc) :
      w.session = some s → w.calls[t]? = some c → PcMove P keys s.manager c.blob a c.pc pc →
      Stepped P keys w a (w.setPc t c pc)
  | enqueued (s : Session) (t : ℕ) (c : AddCall) (blob : BlobEncrypted) :
      w.session = some s → w.calls[t]? = some c → c.pc = .encrypted blob →
      Stepped P keys w (.enqueue t)
        ((w.setManager s { s.manager with blobs := s.manager.blobs ++ [blob] }).setPc t c .queued)
  | wrote (s : Session) (t : ℕ) (c : AddCall) (exceeded : Bool) (io : PackfileIo) (m : Manager)
      (disk : Disk) (r : Except PackfileError Bool) (pc : AddPc) :
      w.session = some s → w.calls[t]? = some c → c.pc = .writing exceeded →
      s.manager.writePackfile P keys w.disk io = some (m, disk, r) →
      ((∃ e, r = .ok e ∧ pc = .writing (exceeded || e)) ∨
        ∃ e, r = .error e ∧ pc = .returned (.error e)) →
      Stepped P keys w (.write t io) (({ w with disk := disk }.setManager s m).setPc t c pc)
  | flushes (s : Session) : w.session = some s → s.flushing = false →
      (∀ c ∈ w.calls, c.pc.isFinished = true) →
      Stepped P keys w .flush { w with session := some { s with flushing := true } }
  | flushWrote (s : Session) (io : PackfileIo) (m : Manager) (disk : Disk) (e : Bool) :
      w.session = some s → s.flushing = true →
      s.manager.writePackfile P keys w.disk io = some (m, disk, .ok e) →
      Stepped P keys w (.flushWrite io) ({ w with disk := disk }.setManager s m)
  | flushFailed (s : Session) (io : PackfileIo) (m : Manager) (disk : Disk) (e : PackfileError) :
      w.session = some s → s.flushing = true →
      s.manager.writePackfile P keys w.disk io = some (m, disk, .error e) →
      Stepped P keys w (.flushWrite io) ({ w with disk := disk }.close false)
  | flushedIndex (s : Session) (io : FileWrite) (ix : BlobIndex) (folder : Folder)
      (r : Except PackfileError Unit) : w.session = some s → s.flushing = true →
      s.manager.blobs = [] → s.manager.index.flush P keys w.disk.index io = some (ix, folder, r) →
      Stepped P keys w (.flushIndex io)
        ({ w with disk := { w.disk with index := folder } }.close (decide (r = Except.ok ())))
  | killed (s : Session) : w.session = some s →
      Stepped P keys w .kill
        { w.close false with calls := w.calls.map fun c => { c with pc := c.pc.kill } }

/-- A step of a call has an open session and the call. -/
theorem inCall_eq_some {w w' : World} {t : ℕ} {k : Session → AddCall → Option World}
    (h : w.inCall t k = some w') :
    ∃ s c, w.session = some s ∧ w.calls[t]? = some c ∧ k s c = some w' := by
  unfold World.inCall at h
  split at h
  · rename_i s c hs hc
    exact ⟨s, c, hs, hc, h⟩
  · cases h

theorem stepped_of_openManager {w w' : World} {names : List FileName} {files : Folder} {size : ℕ}
    (h : managerStep P keys w (.openManager names files size) = some w') :
    Stepped P keys w (.openManager names files size) w' := by
  simp only [managerStep] at h
  split at h
  · cases h
  · rename_i hs
    obtain ⟨⟨hn, hf⟩, h⟩ := Option.ite_none_right_eq_some.mp h
    split at h
    · rename_i ix hnew
      obtain rfl := Option.some.inj h
      exact .opened names files size ix hs hn hf hnew
    · rename_i e hnew
      obtain rfl := Option.some.inj h
      exact .notOpened names files size e hs hf hnew

theorem stepped_of_addBlob {w w' : World} {blob : Blob}
    (h : managerStep P keys w (.addBlob blob) = some w') :
    Stepped P keys w (.addBlob blob) w' := by
  simp only [managerStep] at h
  split at h
  · cases h
  · rename_i s hs
    split at h
    · cases h
    · rename_i hflush
      split at h
      · rename_i hsize
        obtain rfl := Option.some.inj h
        exact .added s blob _ hs (by simpa using hflush) (Or.inl ⟨rfl, hsize⟩)
      · rename_i hsize
        obtain rfl := Option.some.inj h
        exact .added s blob _ hs (by simpa using hflush) (Or.inr ⟨rfl, not_lt.mp hsize⟩)

theorem stepped_of_check {w w' : World} {t : ℕ} {nonce : Option BlobNonce}
    (h : managerStep P keys w (.check t nonce) = some w') :
    Stepped P keys w (.check t nonce) w' := by
  obtain ⟨s, c, hs, hc, h⟩ := inCall_eq_some h
  split at h
  · rename_i hpc
    obtain ⟨-, h⟩ := Option.ite_none_right_eq_some.mp h
    split at h
    · rename_i hdup
      obtain rfl := Option.some.inj h
      exact .moved s t c _ _ hs hc (hpc ▸ .duplicate t nonce hdup)
    · cases nonce with
      | none =>
        obtain rfl := Option.some.inj h
        exact .moved s t c _ _ hs hc (hpc ▸ .noNonce t)
      | some nonce =>
        cases henc : compressEncryptBlob P keys c.blob nonce with
        | none =>
          simp only [henc, Option.some.injEq] at h
          exact h ▸ .moved s t c _ _ hs hc (hpc ▸ .encryptFails t nonce henc)
        | some blob =>
          simp only [henc, Option.some.injEq] at h
          exact h ▸ .moved s t c _ _ hs hc (hpc ▸ .encrypts t nonce blob henc)
  · cases h

theorem stepped_of_write {w w' : World} {t : ℕ} {io : PackfileIo}
    (h : managerStep P keys w (.write t io) = some w') : Stepped P keys w (.write t io) w' := by
  obtain ⟨s, c, hs, hc, h⟩ := inCall_eq_some h
  split at h
  · rename_i exceeded hpc
    split at h
    · cases h
    · obtain ⟨⟨m, disk, r⟩, hwrite, rfl⟩ := Option.map_eq_some_iff.mp h
      refine .wrote s t c exceeded io m disk r _ hs hc hpc hwrite ?_
      cases r with
      | ok e => exact Or.inl ⟨e, rfl, rfl⟩
      | error e => exact Or.inr ⟨e, rfl, rfl⟩
  · cases h

theorem stepped_of_flushWrite {w w' : World} {io : PackfileIo}
    (h : managerStep P keys w (.flushWrite io) = some w') :
    Stepped P keys w (.flushWrite io) w' := by
  simp only [managerStep] at h
  split at h
  · cases h
  · rename_i s hs
    obtain ⟨⟨hflush, -⟩, h⟩ := Option.ite_none_right_eq_some.mp h
    obtain ⟨⟨m, disk, r⟩, hwrite, rfl⟩ := Option.map_eq_some_iff.mp h
    cases r with
    | ok e => exact .flushWrote s io m disk e hs hflush hwrite
    | error e => exact .flushFailed s io m disk e hs hflush hwrite

/-- The other steps of a call of `add_blob`. -/
theorem stepped_of_inCall {w w' : World} {a : ManagerAction} {t : ℕ}
    (ha : a = .enqueue t ∨ a = .trigger t ∨ a = .lock t ∨ a = .unlock t)
    (h : managerStep P keys w a = some w') : Stepped P keys w a w' := by
  rcases ha with rfl | rfl | rfl | rfl
  all_goals obtain ⟨s, c, hs, hc, h⟩ := inCall_eq_some h
  · split at h
    · rename_i blob hpc
      obtain ⟨-, h⟩ := Option.ite_none_right_eq_some.mp h
      obtain rfl := Option.some.inj h
      exact .enqueued s t c blob hs hc hpc
    · cases h
  · split at h
    · rename_i hpc
      obtain ⟨-, h⟩ := Option.ite_none_right_eq_some.mp h
      obtain rfl := Option.some.inj h
      split
      · exact .moved s t c _ _ hs hc (hpc ▸ .triggers t)
      · exact .moved s t c _ _ hs hc (hpc ▸ .rests t)
    · cases h
  · split at h
    · rename_i hpc
      obtain ⟨-, h⟩ := Option.ite_none_right_eq_some.mp h
      obtain rfl := Option.some.inj h
      exact .moved s t c _ _ hs hc (hpc ▸ .locks t)
    · cases h
  · split at h
    · rename_i exceeded hpc
      obtain ⟨-, h⟩ := Option.ite_none_right_eq_some.mp h
      obtain rfl := Option.some.inj h
      cases exceeded with
      | true => exact .moved s t c _ _ hs hc (hpc ▸ .exceeds t)
      | false => exact .moved s t c _ _ hs hc (hpc ▸ .unlocks t _)
    · cases h

theorem stepped_of_managerStep {w w' : World} {a : ManagerAction}
    (h : managerStep P keys w a = some w') : Stepped P keys w a w' := by
  cases a with
  | openManager names files size => exact stepped_of_openManager h
  | addBlob blob => exact stepped_of_addBlob h
  | check t nonce => exact stepped_of_check h
  | enqueue t => exact stepped_of_inCall (Or.inl rfl) h
  | trigger t => exact stepped_of_inCall (Or.inr (Or.inl rfl)) h
  | lock t => exact stepped_of_inCall (Or.inr (Or.inr (Or.inl rfl))) h
  | write t io => exact stepped_of_write h
  | unlock t => exact stepped_of_inCall (Or.inr (Or.inr (Or.inr rfl))) h
  | flushWrite io => exact stepped_of_flushWrite h
  | flush =>
    simp only [managerStep] at h
    split at h
    · cases h
    · rename_i s hs
      obtain ⟨⟨hflush, hall⟩, h⟩ := Option.ite_none_right_eq_some.mp h
      obtain rfl := Option.some.inj h
      exact .flushes s hs (by simpa using hflush) (List.all_eq_true.mp hall)
  | flushIndex io =>
    simp only [managerStep] at h
    split at h
    · cases h
    · rename_i s hs
      obtain ⟨⟨hflush, hnil⟩, h⟩ := Option.ite_none_right_eq_some.mp h
      obtain ⟨⟨ix, folder, r⟩, hfl, rfl⟩ := Option.map_eq_some_iff.mp h
      exact .flushedIndex s io ix folder r hs hflush hnil hfl
  | kill =>
    simp only [managerStep] at h
    split at h
    · cases h
    · rename_i s hs
      obtain rfl := Option.some.inj h
      exact .killed s hs

/-! ## 2. New packfiles -/

/-- The id of the packfile that a step may create. -/
def ManagerAction.packfileId : ManagerAction → Option PackfileId
  | .write _ io | .flushWrite io => some io.id
  | _ => none

/-- The packfiles after a step that may create one of this id: a packfile that is there is never
written again. -/
inductive Gains (before : PackfileId → Option Bytes) (new : Option PackfileId) :
    (PackfileId → Option Bytes) → Prop
  | nothing : Gains before new before
  | created (id : PackfileId) (content : Bytes) : new = some id → before id = none →
      Gains before new (Function.update before id (some content))

section

variable {before after : PackfileId → Option Bytes} {new : Option PackfileId} {id : PackfileId}
  {content : Bytes}

/-- A packfile appears under the id that it is written with. -/
theorem Gains.absent (h : Gains before new after) (hne : new ≠ some id)
    (hnone : before id = none) : after id = none := by
  cases h with
  | nothing => exact hnone
  | created id' content hnew _ =>
    refine (Function.update_of_ne ?_ _ _).trans hnone
    rintro rfl
    exact hne hnew

/-- What is in the folder stays as it is. -/
theorem Gains.kept (h : Gains before new after) (hsome : before id = some content) :
    after id = some content := by
  cases h with
  | nothing => exact hsome
  | created id' content' _ hfree =>
    refine (Function.update_of_ne ?_ _ _).trans hsome
    rintro rfl
    cases hfree.symm.trans hsome

theorem gains_of_writePackfile {m m' : Manager} {disk disk' : Disk} {io : PackfileIo}
    {r : Except PackfileError Bool} (h : m.writePackfile P keys disk io = some (m', disk', r)) :
    Gains disk.packfiles (some io.id) disk'.packfiles := by
  obtain ⟨ix, draft, rest, taken, -, -, hround⟩ := round_of_writePackfile h
  cases hround with
  | nothing | notEncrypted | notCreated => exact .nothing
  | torn buffer n hcount hser hlen hfree | notRecorded buffer ix' folder e hcount hser hlen hfree
    | written buffer ix' folder hcount hser hlen hfree => exact .created io.id _ rfl hfree

theorem gains_of_managerStep {w w' : World} {a : ManagerAction}
    (h : managerStep P keys w a = some w') :
    Gains w.disk.packfiles a.packfileId w'.disk.packfiles := by
  cases stepped_of_managerStep h with
  | wrote x t c exceeded io m disk r pc _ _ _ hwrite => exact gains_of_writePackfile hwrite
  | flushWrote x io m disk e _ _ hwrite => exact gains_of_writePackfile hwrite
  | flushFailed x io m disk e _ _ hwrite => exact gains_of_writePackfile hwrite
  | opened | notOpened | added | moved | enqueued | flushes | flushedIndex | killed =>
    exact .nothing

end

/-! ## 3. Soundness of the folder -/

namespace World

/-- The blobs ever passed to `add_blob`. -/
def added (w : World) : List Blob := (w.past ++ w.calls).map AddCall.blob

end World

/-- What holds in every run. -/
structure Sound (P : Primitives) (keys : KeyManager) (w : World) : Prop where
  numbered : Numbered w.disk.index
  stored : ∀ e, InFolder P keys w.disk.index e → Stored P keys w.added w.disk e
  manager : ∀ s, w.session = some s → ManagerOk P keys w.added s.manager w.disk
  called : ∀ c ∈ w.calls, c.pc = .called → c.blob.data.length ≤ blobMaxUncompressedSize
  encrypted : ∀ c ∈ w.calls, ∀ b, c.pc = .encrypted b → EncryptedFrom P keys b c.blob

/-- If a step can leave a partial index file, the cipher rejects it. -/
def Untorn (P : Primitives) : ManagerAction → Prop
  | .write _ io => ∀ k, io.flush k ≠ .ok → P.RejectsTruncated
  | .flushWrite io => ∀ k, io.flush k ≠ .ok → P.RejectsTruncated
  | .flushIndex io => io ≠ .ok → P.RejectsTruncated
  | _ => True

section

variable {w w' : World}

theorem AddPc.kill_cases (pc : AddPc) :
    (∃ r, pc = .returned r ∧ pc.kill = .returned r) ∨ pc.kill = .killed := by
  cases pc with
  | returned r => exact Or.inl ⟨r, rfl, rfl⟩
  | _ => exact Or.inr rfl

/-- The blobs of the calls stay when a call moves on. -/
theorem map_blob_set {calls : List AddCall} {t : ℕ} {c : AddCall} (hc : calls[t]? = some c)
    (pc : AddPc) : (calls.set t { c with pc := pc }).map AddCall.blob = calls.map AddCall.blob :=
  Pool.map_set AddCall.blob hc rfl

theorem added_setPc {t : ℕ} {c : AddCall} (hc : w.calls[t]? = some c) (pc : AddPc) :
    (w.setPc t c pc).added = w.added := by
  simp only [World.added, World.setPc, List.map_append, map_blob_set hc]

theorem mem_setPc {t : ℕ} {c c' : AddCall} {pc : AddPc} (h : c' ∈ (w.setPc t c pc).calls) :
    c' ∈ w.calls ∨ c' = { c with pc := pc } := List.mem_or_eq_of_mem_set h

theorem ManagerOk.mono {added added' : List Blob} {m : Manager} {disk : Disk}
    (hsub : added ⊆ added') (h : ManagerOk P keys added m disk) :
    ManagerOk P keys added' m disk where
  files := h.files
  stored e he := (h.stored e he).mono hsub fun _ _ hid => hid
  queue b hb := by
    obtain ⟨p, hp, henc⟩ := h.queue b hb
    exact ⟨p, hsub hp, henc⟩

theorem Sound.start : Sound P keys .start where
  numbered _ hf := by simp [World.start, Disk.empty] at hf
  stored _ he := by simp [World.start, Disk.empty, InFolder] at he
  manager _ hs := by simp [World.start] at hs
  called _ hc := by simp [World.start] at hc
  encrypted _ hc := by simp [World.start] at hc

/-- The rest of the state changes, the calls stay. -/
theorem Sound.setPc (h : Sound P keys w) {t : ℕ} {c : AddCall} (hc : w.calls[t]? = some c)
    {pc : AddPc} (hcalled : pc ≠ .called)
    (henc : ∀ b, pc = .encrypted b → EncryptedFrom P keys b c.blob) :
    Sound P keys (w.setPc t c pc) where
  numbered := h.numbered
  stored e he := by
    rw [added_setPc hc]
    exact h.stored e he
  manager s hs := by
    rw [added_setPc hc]
    exact h.manager s hs
  called c' hc' hpc := by
    rcases mem_setPc hc' with hc' | rfl
    · exact h.called c' hc' hpc
    · exact absurd hpc hcalled
  encrypted c' hc' b hpc := by
    rcases mem_setPc hc' with hc' | rfl
    · exact h.encrypted c' hc' b hpc
    · exact henc b hpc

/-- A manager that is in order stays with a disk that holds what it has recorded. -/
theorem Sound.setManager (h : Sound P keys w) {s : Session} {m : Manager} {disk : Disk}
    (hm : ManagerOk P keys w.added m disk) :
    Sound P keys ({ w with disk := disk }.setManager s m) where
  numbered := hm.files.numbered
  stored e he := hm.stored e (Or.inl he)
  manager s' hs' := by
    obtain rfl := Option.some.inj hs'
    exact hm
  called := h.called
  encrypted := h.encrypted

/-- The session ends. -/
theorem Sound.close (h : Sound P keys w) {m : Manager} {disk : Disk}
    (hm : ManagerOk P keys w.added m disk) (flushed : Bool) :
    Sound P keys ({ w with disk := disk }.close flushed) where
  numbered := hm.files.numbered
  stored e he := hm.stored e (Or.inl he)
  manager _ hs := by cases hs
  called := h.called
  encrypted := h.encrypted

/-- A flush of the index keeps a manager in order. -/
theorem ManagerOk.flush (hP : P.Lawful) {added : List Blob} {m : Manager} {disk : Disk}
    {io : FileWrite} {ix : BlobIndex} {folder : Folder} {r : Except PackfileError Unit}
    (hrej : io ≠ .ok → P.RejectsTruncated) (h : ManagerOk P keys added m disk)
    (hflush : m.index.flush P keys disk.index io = some (ix, folder, r)) :
    ManagerOk P keys added { m with index := ix } { disk with index := folder } := by
  obtain ⟨hfiles, hrec, -⟩ := flush_recorded hP hrej h.files hflush
  exact ⟨hfiles, fun e he => (h.stored e ((hrec e).mp he)).mono (List.Subset.refl _)
    fun _ _ hid => hid, h.queue⟩

/-- Every step keeps the folder sound. -/
theorem sound_step (hP : P.Lawful) {a : ManagerAction} (h : Sound P keys w) (ha : Untorn P a)
    (hstep : managerStep P keys w a = some w') : Sound P keys w' := by
  cases stepped_of_managerStep hstep with
  | opened names files size ix hs hn hf hnew =>
    have hsub : w.added = (⟨w.disk, w.past ++ w.calls, [], some ⟨⟨[], ix, size⟩, false⟩, false⟩ :
        World).added := by simp [World.added]
    refine ⟨h.numbered, fun e he => hsub ▸ h.stored e he, ?_, by simp, by simp⟩
    intro s hs
    obtain rfl := Option.some.inj hs
    refine ⟨filesOk_new h.numbered hn hf hnew, fun e he => hsub ▸ h.stored e ?_, by simp⟩
    -- the buffer of a new index is empty
    obtain ⟨items, -, rfl⟩ := BlobIndex.new_ok hnew
    exact he.resolve_right (by simp)
  | notOpened names files size e hs hf hnew =>
    have hsub : w.added = (⟨w.disk, w.past ++ w.calls, [], none, false⟩ : World).added := by
      simp [World.added]
    exact ⟨h.numbered, fun e he => hsub ▸ h.stored e he, fun _ hs => (by cases hs), by simp,
      by simp⟩
  | added s blob pc hs hflush hpc =>
    have hsub : w.added ⊆ ({ w with calls := w.calls ++ [⟨blob, pc⟩] } : World).added := by
      simp [World.added]
    refine ⟨h.numbered, fun e he => (h.stored e he).mono hsub fun _ _ hid => hid,
      fun s hs => (h.manager s hs).mono hsub, ?_, ?_⟩
    · intro c hc hcalled
      rcases List.mem_append.mp hc with hc | hc
      · exact h.called c hc hcalled
      · obtain rfl := List.mem_singleton.mp hc
        exact hpc.elim (fun hpc => by cases hpc.1.symm.trans hcalled) And.right
    · intro c hc b hb
      rcases List.mem_append.mp hc with hc | hc
      · exact h.encrypted c hc b hb
      · obtain rfl := List.mem_singleton.mp hc
        rcases hpc with ⟨hpc, -⟩ | ⟨hpc, -⟩ <;> cases hpc.symm.trans hb
  | moved s t c a pc hs hc hmove =>
    have hmem := List.mem_of_getElem? hc
    generalize hold : c.pc = old at hmove
    refine h.setPc hc ?_ ?_
    · cases hmove <;> simp
    · intro b hb
      cases hmove with
      | encrypts t nonce b' henc =>
        obtain rfl := AddPc.encrypted.inj hb
        have hn : b'.nonce = nonce := by
          obtain ⟨_, -, rfl⟩ := Option.map_eq_some_iff.mp henc
          rfl
        exact ⟨h.called c hmem hold, hn ▸ henc⟩
      | _ => cases hb
  | enqueued s t c blob hs hc hpc =>
    have hM := h.manager s hs
    have hmem := List.mem_of_getElem? hc
    have hset : Sound P keys
        (w.setManager s { s.manager with blobs := s.manager.blobs ++ [blob] }) := by
      refine h.setManager (show ManagerOk P keys w.added _ w.disk from ⟨hM.files, hM.stored, ?_⟩)
      intro b hb
      rcases List.mem_append.mp hb with hb | hb
      · exact hM.queue b hb
      · obtain rfl := List.mem_singleton.mp hb
        exact ⟨c.blob, List.mem_map.mpr ⟨c, List.mem_append_right _ hmem, rfl⟩,
          h.encrypted c hmem b hpc⟩
    exact hset.setPc hc (by simp) (by simp)
  | wrote s t c exceeded io m disk r pc hs hc hpc hwrite hr =>
    have hset := h.setManager (s := s) ((h.manager s hs).writePackfile hP ha hwrite)
    obtain ⟨e, -, rfl⟩ | ⟨e, -, rfl⟩ := hr <;> exact hset.setPc hc (by simp) (by simp)
  | flushes s hs hflush hall =>
    refine { h with manager := ?_ }
    intro s' hs'
    obtain rfl := Option.some.inj hs'
    exact h.manager s hs
  | flushWrote s io m disk e hs hflush hwrite =>
    exact h.setManager ((h.manager s hs).writePackfile hP ha hwrite)
  | flushFailed s io m disk e hs hflush hwrite =>
    exact h.close ((h.manager s hs).writePackfile hP ha hwrite) false
  | flushedIndex s io ix folder r hs hflush hnil hfl =>
    exact h.close ((h.manager s hs).flush hP ha hfl) _
  | killed s hs =>
    have hsub : w.added = ({ w.close false with
        calls := w.calls.map fun c => { c with pc := c.pc.kill } } : World).added := by
      simp [World.added, World.close]
    refine ⟨h.numbered, fun e he => hsub ▸ h.stored e he, fun _ hs => (by cases hs),
      fun c hc hpc => ?_, fun c hc b hpc => ?_⟩ <;>
    · obtain ⟨c, -, rfl⟩ := List.mem_map.mp hc
      obtain ⟨r, -, hr⟩ | hr := c.pc.kill_cases <;> cases hr.symm.trans hpc

/-! ## 4. Every blob taken is accounted for -/

/-- The call has taken its blob, and if it has returned, with `Ok` or `ExceededBufferLimit`. -/
def AddPc.Accepts : AddPc → Prop
  | .queued => True
  | .overTarget => True
  | .writing _ => True
  | .returned (.ok _) => True
  | .returned (.error e) => e = .exceededBufferLimit
  | _ => False

theorem AddPc.accepted_iff {pc : AddPc} :
    pc.accepted = true ↔ pc.Accepts ∧ pc.isFinished = true := by
  cases pc with
  | returned r => cases r <;> simp [AddPc.accepted, AddPc.Accepts, AddPc.isFinished]
  | _ => simp [AddPc.accepted, AddPc.isFinished, AddPc.Accepts]

/-- Where the blobs of the session are. -/
structure Accounted (P : Primitives) (keys : KeyManager) (w : World) : Prop where
  kept : ∀ s, w.session = some s → Kept P keys s.manager w.disk
  found : ∀ s, w.session = some s → ∀ c ∈ w.calls, c.pc.Accepts →
    Findable P keys s.manager w.disk c.blob.hash
  flushed : w.flushed = true → ∀ c ∈ w.calls, c.pc.Accepts →
    ∃ id, InFolder P keys w.disk.index (c.blob.hash, id)

/-- No round of `write_packfiles` that a call of `add_blob` has triggered loses blobs. -/
def KeepsPopped (w : World) : ManagerAction → Prop
  | .write _ io => ∀ s, w.session = some s → io.LosesNone s.manager w.disk
  | _ => True

/-- While a session is open the last flush does not count. -/
def Unflushed (w : World) : Prop := ∀ s, w.session = some s → w.flushed = false

theorem unflushed_step {a : ManagerAction} (h : Unflushed w)
    (hstep : managerStep P keys w a = some w') : Unflushed w' := by
  cases stepped_of_managerStep hstep with
  | opened | notOpened => exact fun _ _ => rfl
  | added s blob pc hs => exact fun _ _ => h s hs
  | moved s t c a pc hs => exact fun _ _ => h s hs
  | enqueued s t c blob hs => exact fun _ _ => h s hs
  | wrote s t c exceeded io m disk r pc hs => exact fun _ _ => h s hs
  | flushes s hs => exact fun _ _ => h s hs
  | flushWrote s io m disk e hs => exact fun _ _ => h s hs
  | flushFailed | flushedIndex | killed => exact fun _ hs => by cases hs

theorem PcMove.not_finished {m : Manager} {blob : Blob} {a : ManagerAction} {pc pc' : AddPc}
    (h : PcMove P keys m blob a pc pc') : pc.isFinished = false := by
  cases h <;> rfl

/-- A call that accepts after a move has accepted before, or its blob is known. -/
theorem PcMove.accepts {m : Manager} {blob : Blob} {a : ManagerAction} {pc pc' : AddPc}
    (h : PcMove P keys m blob a pc pc') (hacc : pc'.Accepts) :
    pc.Accepts ∨ m.index.isBlobDuplicate blob.hash = true := by
  cases h with
  | duplicate t nonce hdup => exact Or.inr hdup
  | noNonce | encryptFails => cases hacc
  | encrypts => exact hacc.elim
  | triggers | rests | locks | exceeds | unlocks => exact Or.inl trivial

theorem Findable.flush (hP : P.Lawful) {m : Manager} {disk : Disk} {io : FileWrite}
    {ix : BlobIndex} {folder : Folder} {r : Except PackfileError Unit} {hash : BlobHash}
    (hrej : io ≠ .ok → P.RejectsTruncated) (hfiles : FilesOk P keys m.index disk.index)
    (hflush : m.index.flush P keys disk.index io = some (ix, folder, r)) (hr : r = .ok ())
    (hnil : m.blobs = []) (h : Findable P keys m disk hash) :
    ∃ id, InFolder P keys folder (hash, id) := by
  obtain ⟨-, hrec, -, -, hbuf, -⟩ := flush_recorded hP hrej hfiles hflush
  obtain ⟨id, hid⟩ | ⟨b, hb, -⟩ := h
  · refine ⟨id, ((hrec _).mpr hid).resolve_right ?_⟩
    simp [hbuf hr]
  · simp [hnil] at hb

/-- A new session accounts for all its blobs, there being none. -/
theorem Stepped.accounted_open {names : List FileName} {files : Folder} {size : ℕ}
    (h : Stepped P keys w (.openManager names files size) w') : Accounted P keys w' := by
  cases h with
  | opened _ _ _ ix hs hn hf hnew =>
    refine ⟨?_, by simp, by simp⟩
    intro s hs
    obtain rfl := Option.some.inj hs
    constructor
    · intro e he
      exact Or.inl ((new_items hf hnew e).mp he)
    · intro hash hq
      obtain ⟨items, -, rfl⟩ := BlobIndex.new_ok hnew
      simp at hq
  | notOpened => exact ⟨by simp, by simp, by simp⟩
  | moved s t c _ pc hs hc hmove => cases hmove

/-- Every step of the session accounts for its blobs. -/
theorem accounted_step (hP : P.Lawful) {a : ManagerAction} (h : Sound P keys w) (hu : Unflushed w)
    (hacc : Accounted P keys w) (ha : Untorn P a) (hk : KeepsPopped w a)
    (hstep : managerStep P keys w a = some w') : Accounted P keys w' := by
  cases stepped_of_managerStep hstep with
  | opened | notOpened => exact (stepped_of_managerStep hstep).accounted_open
  | added s blob pc hs hflush hpc =>
    refine ⟨hacc.kept, ?_, fun hfl => by cases (hu s hs).symm.trans hfl⟩
    intro s hs c hc hca
    rcases List.mem_append.mp hc with hc | hc
    · exact hacc.found s hs c hc hca
    · obtain rfl := List.mem_singleton.mp hc
      rcases hpc with ⟨rfl, -⟩ | ⟨rfl, -⟩ <;> cases hca
  | moved s t c a pc hs hc hmove =>
    refine ⟨hacc.kept, ?_, fun hfl => by cases (hu s hs).symm.trans hfl⟩
    intro s' hs' c' hc' hca
    rcases mem_setPc hc' with hc' | rfl
    · exact hacc.found s' hs' c' hc' hca
    · obtain rfl := Option.some.inj (hs.symm.trans hs')
      rcases hmove.accepts hca with hca | hdup
      · exact hacc.found s hs c (List.mem_of_getElem? hc) hca
      · exact Or.inl ((hacc.kept s hs).of_isBlobDuplicate hdup)
  | enqueued s t c blob hs hc hpc =>
    refine ⟨?_, ?_, fun hfl => by cases (hu s hs).symm.trans hfl⟩
    · intro s' hs'
      obtain rfl := Option.some.inj hs'
      exact ⟨(hacc.kept s hs).items, (hacc.kept s hs).queued⟩
    · intro s' hs' c' hc' hca
      obtain rfl := Option.some.inj hs'
      rcases mem_setPc hc' with hc' | rfl
      · exact (hacc.found s hs c' hc' hca).imp_right fun ⟨b, hb, hhash⟩ =>
          ⟨b, List.mem_append_left _ hb, hhash⟩
      · -- the blob is at the end of the queue
        refine Or.inr ⟨blob, List.mem_append_right _ List.mem_cons_self, ?_⟩
        obtain ⟨-, henc⟩ := h.encrypted c (List.mem_of_getElem? hc) blob hpc
        obtain ⟨_, -, hb⟩ := Option.map_eq_some_iff.mp henc
        rw [← hb]
  | wrote s t c exceeded io m disk r pc hs hc hpc hwrite hr =>
    obtain ⟨hkept, hfound⟩ := (hacc.kept s hs).writePackfile hP ha (h.manager s hs)
      (Or.inl (hk s hs)) hwrite
    refine ⟨?_, ?_, fun hfl => by cases (hu s hs).symm.trans hfl⟩
    · intro s' hs'
      obtain rfl := Option.some.inj hs'
      exact hkept
    · intro s' hs' c' hc' hca
      obtain rfl := Option.some.inj hs'
      rcases mem_setPc hc' with hc' | rfl
      · exact hfound _ (hacc.found s hs c' hc' hca)
      · exact hfound _ (hacc.found s hs c (List.mem_of_getElem? hc) (by rw [hpc]; trivial))
  | flushes s hs hflush hall =>
    refine ⟨?_, ?_, hacc.flushed⟩
    · intro s' hs'
      obtain rfl := Option.some.inj hs'
      exact hacc.kept s hs
    · intro s' hs'
      obtain rfl := Option.some.inj hs'
      exact hacc.found s hs
  | flushWrote s io m disk e hs hflush hwrite =>
    obtain ⟨hkept, hfound⟩ := (hacc.kept s hs).writePackfile hP ha (h.manager s hs)
      (Or.inr ⟨e, rfl⟩) hwrite
    refine ⟨?_, ?_, fun hfl => by cases (hu s hs).symm.trans hfl⟩
    · intro s' hs'
      obtain rfl := Option.some.inj hs'
      exact hkept
    · intro s' hs' c' hc' hca
      obtain rfl := Option.some.inj hs'
      exact hfound _ (hacc.found s hs c' hc' hca)
  | flushFailed s io m disk e hs hflush hwrite =>
    exact ⟨fun _ hs => (by cases hs), fun _ hs => (by cases hs), fun hfl => (by cases hfl)⟩
  | flushedIndex s io ix folder r hs hflush hnil hfl =>
    refine ⟨fun _ hs => (by cases hs), fun _ hs => (by cases hs), ?_⟩
    intro hok c hc hca
    exact (hacc.found s hs c hc hca).flush hP ha (h.manager s hs).files hfl
      (of_decide_eq_true hok) hnil
  | killed s hs =>
    exact ⟨fun _ hs => (by cases hs), fun _ hs => (by cases hs), fun hfl => (by cases hfl)⟩

end

end Backuwup.Client
