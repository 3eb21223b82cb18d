/-
# Tampering with a stored backup

An adversary without the keys may put anything into the folder of a backup.  What `get_blob`
then returns has passed the cipher twice, once with the header of its packfile and once with
its own data, and what the cipher accepts is what the client has encrypted.  The keys tell what
it has been encrypted as: index files, headers and the blobs of each hash have keys of their own.

`History` is a backup folder (`World`) together with all encryptions the client has made, and
the adversary may replace the whole folder between any two steps.  The invariant is `Genuine`:
every encryption is a list of index entries, a header of blobs that were added, or a blob that
was added under its own key.  The result is `tampered_yields_original`: a manager opened on
whatever the folder holds answers with an error, with `None` or with a blob that was added, and
so do `fetch_full_tree` and `restore_file`.  It does not need the nonces to be fresh.
-/
import Backuwup.Client.DirUnpacker
import Backuwup.Client.Packfile.RoundTrip

namespace Backuwup.Client

/-! ## 1. The encryptions of a step -/

/-- One call of the cipher. -/
structure Encryption where
  key : SymmetricKey
  nonce : Nonce
  plain : Bytes
  cipher : Bytes
deriving DecidableEq

/-- What `encrypt_in_place` encrypts, which is nothing when it fails. -/
def Primitives.encryptions (P : Primitives) (key : SymmetricKey) (nonce : Nonce) (plain : Bytes) :
    List Encryption :=
  match P.encryptInPlace key nonce plain with
  | none => []
  | some cipher => [⟨key, nonce, plain, cipher⟩]

namespace BlobIndex

def flushEncryptions (P : Primitives) (keys : KeyManager) (ix : BlobIndex) : List Encryption :=
  if u32Max ≤ ix.lastFileNum then []
  else P.encryptions (indexKey P keys) (counterToNonce (ix.lastFileNum + 1))
    (entriesCodec.enc ix.itemsBuf)

def pushEncryptions (P : Primitives) (keys : KeyManager) (ix : BlobIndex) (entry : IndexEntry) :
    List Encryption :=
  if (ix.buffer entry).Full then (ix.buffer entry).flushEncryptions P keys else []

end BlobIndex

def finalizeEncryptions (P : Primitives) (keys : KeyManager) (id : PackfileId)
    (io : ℕ → FileWrite) (ix : BlobIndex) (folder : Folder) : List BlobHash → List Encryption
  | [] => []
  | hash :: hashes =>
    ix.pushEncryptions P keys (hash, id) ++
      match ix.push P keys folder (hash, id) (io hashes.length) with
      | some (ix, folder, .ok ()) => finalizeEncryptions P keys id io ix folder hashes
      | _ => []

/-- In one round of `write_packfiles`: the header, and the index when it is flushed. -/
def Manager.writeEncryptions (P : Primitives) (keys : KeyManager) (m : Manager) (disk : Disk)
    (io : PackfileIo) : List Encryption :=
  match fillDraft m.index .empty m.blobs with
  | (_, _, _, .error _) => []
  | (ix, draft, _, .ok ()) =>
    if draft.blobCount = 0 then []
    else
      P.encryptions (headerKey P keys) io.id (headerCodec.enc draft.header) ++
        match serializePackfile P keys io.id draft with
        | none => []
        | some buffer =>
          match disk.create io.id buffer io.file with
          | (disk, .ok ()) =>
            finalizeEncryptions P keys io.id io.flush ix disk.index draft.blobs
          | _ => []

def managerEncryptions (P : Primitives) (keys : KeyManager) (w : World) :
    ManagerAction → List Encryption
  | .check t (some nonce) =>
    match w.session, w.calls[t]? with
    | some s, some c =>
      if s.manager.index.isBlobDuplicate c.blob.hash then []
      else P.encryptions (blobKey P keys c.blob.hash) nonce (P.compress c.blob.data)
    | _, _ => []
  | .write _ io =>
    match w.session with
    | some s => s.manager.writeEncryptions P keys w.disk io
    | none => []
  | .flushWrite io =>
    match w.session with
    | some s => s.manager.writeEncryptions P keys w.disk io
    | none => []
  | .flushIndex _ =>
    match w.session with
    | some s => s.manager.index.flushEncryptions P keys
    | none => []
  | _ => []

/-! ## 2. Histories -/

/-- A backup folder and all that has been encrypted for it. -/
structure History where
  world : World
  encryptions : List Encryption

def History.start : History := ⟨.start, []⟩

inductive HistoryAction
  | client (a : ManagerAction)
  /-- the adversary replaces the packfiles and the index files -/
  | tamper (disk : Disk)

def historyStep (P : Primitives) (keys : KeyManager) (h : History) :
    HistoryAction → Option History
  | .client a =>
    (managerStep P keys h.world a).map fun w =>
      ⟨w, h.encryptions ++ managerEncryptions P keys h.world a⟩
  | .tamper disk => some { h with world := { h.world with disk := disk } }

/-- The callers of `add_blob` pass the hash of the data. -/
def HashesData (P : Primitives) : History → HistoryAction → Prop
  | _, .client (.addBlob blob) => blob.hash = P.hash blob.data
  | _, _ => True

/-- `Manager::new` on the folder, given its two listings, and then `get_blob`. -/
def openAndGet (P : Primitives) (keys : KeyManager) (names : List FileName) (files : Folder)
    (disk : Disk) : GetBlob := fun hash =>
  match BlobIndex.new P keys names files with
  | .error e => .error e
  | .ok ix => Manager.getBlob P keys ix disk hash

/-! ## 3. What is assumed of the cipher and the keys -/

/-- Under a key of the client the cipher accepts only what the client has encrypted with this
key and nonce, and gives back what was encrypted. -/
def AcceptsOnly (P : Primitives) (keys : KeyManager) (encryptions : List Encryption) : Prop :=
  ∀ info nonce cipher plain, P.decrypt (keys.deriveBackupKey P info) nonce cipher = some plain →
    ⟨keys.deriveBackupKey P info, nonce, plain, cipher⟩ ∈ encryptions

/-- The keys derived for index files, headers and the blobs that were added are told apart, also
from the key of a hash that was not added. -/
structure KeysDistinct (P : Primitives) (keys : KeyManager) (added : List Blob) : Prop where
  index_header : indexKey P keys ≠ headerKey P keys
  blob_index : ∀ hash, blobKey P keys hash ≠ indexKey P keys
  blob_header : ∀ hash, blobKey P keys hash ≠ headerKey P keys
  blob : ∀ hash, ∀ b ∈ added, blobKey P keys hash = blobKey P keys b.hash → hash = b.hash

variable {P : Primitives} {keys : KeyManager}

/-! ## 4. What has been encrypted -/

/-- A header entry that belongs to a blob that was added. -/
def OfAdded (added : List Blob) (hash : BlobHash) (kind : BlobKind) : Prop :=
  ∃ b ∈ added, b.hash = hash ∧ b.kind = kind

/-- What the client encrypts, by key. -/
inductive Genuine (P : Primitives) (keys : KeyManager) (added : List Blob) : Encryption → Prop
  | index (nonce : Nonce) (plain cipher : Bytes) :
      Genuine P keys added ⟨indexKey P keys, nonce, plain, cipher⟩
  | header (nonce : Nonce) (header : List PackfileHeaderBlob) (cipher : Bytes) :
      headerCodec.ok header → (∀ entry ∈ header, OfAdded added entry.hash entry.kind) →
      Genuine P keys added ⟨headerKey P keys, nonce, headerCodec.enc header, cipher⟩
  | blob (b : Blob) (nonce : Nonce) (cipher : Bytes) :
      b ∈ added → b.data.length ≤ blobMaxUncompressedSize →
      Genuine P keys added ⟨blobKey P keys b.hash, nonce, P.compress b.data, cipher⟩

section

variable {added added' : List Blob} {e : Encryption}

theorem OfAdded.mono {hash : BlobHash} {kind : BlobKind} (hsub : added ⊆ added')
    (h : OfAdded added hash kind) : OfAdded added' hash kind := by
  obtain ⟨b, hb, hh, hk⟩ := h
  exact ⟨b, hsub hb, hh, hk⟩

theorem Genuine.mono (hsub : added ⊆ added') (h : Genuine P keys added e) :
    Genuine P keys added' e := by
  cases h with
  | index nonce plain cipher => exact .index nonce plain cipher
  | header nonce header cipher hok hall =>
    exact .header nonce header cipher hok fun entry he => (hall entry he).mono hsub
  | blob b nonce cipher hb hsize => exact .blob b nonce cipher (hsub hb) hsize

theorem Primitives.mem_encryptions {key : SymmetricKey} {nonce : Nonce} {plain : Bytes}
    (h : e ∈ P.encryptions key nonce plain) :
    plain.length ≤ aesGcmMaxPlaintext ∧ ∃ cipher, e = ⟨key, nonce, plain, cipher⟩ := by
  unfold Primitives.encryptions at h
  split at h
  · simp at h
  · rename_i cipher hc
    exact ⟨(Primitives.encryptInPlace_eq_some hc).1, cipher, List.mem_singleton.mp h⟩

theorem BlobIndex.flushEncryptions_genuine {ix : BlobIndex}
    (h : e ∈ ix.flushEncryptions P keys) : Genuine P keys added e := by
  unfold BlobIndex.flushEncryptions at h
  split at h
  · simp at h
  · obtain ⟨-, cipher, rfl⟩ := Primitives.mem_encryptions h
    exact .index _ _ _

theorem finalizeEncryptions_genuine {id : PackfileId} {io : ℕ → FileWrite} {hashes : List BlobHash}
    {ix : BlobIndex} {folder : Folder} (h : e ∈ finalizeEncryptions P keys id io ix folder hashes) :
    Genuine P keys added e := by
  induction hashes generalizing ix folder with
  | nil => simp [finalizeEncryptions] at h
  | cons hash hashes ih =>
    rw [finalizeEncryptions, List.mem_append] at h
    rcases h with h | h
    · unfold BlobIndex.pushEncryptions at h
      split at h
      · exact BlobIndex.flushEncryptions_genuine h
      · simp at h
    · split at h
      · exact ih h
      · simp at h

/-- The header of a packfile that is written lists blobs of the queue. -/
theorem writeEncryptions_genuine {m m' : Manager} {disk disk' : Disk} {io : PackfileIo}
    {r : Except PackfileError Bool} (hq : ∀ b ∈ m.blobs, OfAdded added b.hash b.kind)
    (h : m.writePackfile P keys disk io = some (m', disk', r))
    (he : e ∈ m.writeEncryptions P keys disk io) : Genuine P keys added e := by
  unfold Manager.writeEncryptions at he
  unfold Manager.writePackfile at h
  split at he
  · simp at he
  · rename_i ix draft rest hfill
    simp only [hfill] at h
    split at he
    · simp at he
    · rename_i hcount
      rw [if_neg hcount] at h
      rcases List.mem_append.mp he with he | he
      · obtain ⟨hmax, cipher, rfl⟩ := Primitives.mem_encryptions he
        obtain ⟨-, taken, hfilled⟩ := fillDraft_filled hfill
        obtain ⟨passed, hblobs, htaken, -⟩ := hfilled.queue
        have hlaid := hfilled.laid [] .empty
        rw [List.nil_append] at hlaid
        refine .header _ _ _ ?_ ?_
        · -- a packfile over the size limit is not written
          simp only [serializePackfile, Primitives.encryptInPlace, if_pos hmax,
            Option.map_some] at h
          split at h
          · cases h
          · rename_i hsize
            refine hlaid.headerCodec_ok (le_trans ?_ (not_lt.mp hsize)) hmax
            simp only [List.length_append]
            omega
        · intro entry hentry
          obtain ⟨i, hi, rfl⟩ := List.mem_iff_getElem.mp hentry
          have hi' : i < taken.length := hlaid.located.length_eq ▸ hi
          obtain ⟨hhash, hkind, -⟩ := (List.forall₂_iff_get.mp hlaid.located).2 i hi hi'
          simp only [List.get_eq_getElem] at hhash hkind
          rw [hhash, hkind]
          refine hq _ ?_
          rw [hblobs]
          exact List.mem_append_left _ (htaken (List.getElem_mem hi'))
      · split at he
        · simp at he
        · split at he
          · exact finalizeEncryptions_genuine he
          · simp at he

/-- However a round ends, it adds nothing to the queue. -/
theorem writePackfile_blobs {m m' : Manager} {disk disk' : Disk} {io : PackfileIo}
    {r : Except PackfileError Bool} (h : m.writePackfile P keys disk io = some (m', disk', r)) :
    m'.blobs ⊆ m.blobs := by
  obtain ⟨ix, draft, rest, taken, -, hfilled, hround⟩ := round_of_writePackfile h
  exact hround.blobs ▸ hfilled.rest_subset

end

/-! ## 5. The invariant of a history -/

/-- What holds in every history. -/
structure Tracked (P : Primitives) (keys : KeyManager) (h : History) : Prop where
  genuine : ∀ e ∈ h.encryptions, Genuine P keys h.world.added e
  hashes : ∀ b ∈ h.world.added, b.hash = P.hash b.data
  called : ∀ c ∈ h.world.calls, c.pc = .called → c.blob.data.length ≤ blobMaxUncompressedSize
  encrypted : ∀ c ∈ h.world.calls, ∀ b, c.pc = .encrypted b →
    b.hash = c.blob.hash ∧ b.kind = c.blob.kind
  queue : ∀ s, h.world.session = some s → ∀ b ∈ s.manager.blobs,
    OfAdded h.world.added b.hash b.kind

section

variable {w w' : World} {a : ManagerAction}

/-- Blobs are only ever added. -/
theorem added_managerStep (h : managerStep P keys w a = some w') :
    w'.added = w.added ∨ ∃ blob, a = .addBlob blob ∧ w'.added = w.added ++ [blob] := by
  cases stepped_of_managerStep h with
  | opened | notOpened => exact Or.inl (by simp [World.added])
  | added s blob pc => exact Or.inr ⟨blob, rfl, by simp [World.added]⟩
  | moved s t c _ pc _ hc => exact Or.inl (added_setPc hc pc)
  | enqueued s t c blob _ hc => exact Or.inl (added_setPc (w := w.setManager s _) hc .queued)
  | wrote s t c _ io m disk _ pc _ hc =>
    exact Or.inl (added_setPc (w := { w with disk := disk }.setManager s m) hc pc)
  | flushes | flushWrote | flushFailed | flushedIndex => exact Or.inl rfl
  | killed => exact Or.inl (by simp [World.added, World.close, Function.comp_def])

theorem added_subset_managerStep (h : managerStep P keys w a = some w') : w.added ⊆ w'.added := by
  rcases added_managerStep h with heq | ⟨blob, -, heq⟩
  · rw [heq]
    exact List.Subset.refl _
  · rw [heq]
    exact List.subset_append_left _ _

theorem mem_added_of_call {t : ℕ} {c : AddCall} (hc : w.calls[t]? = some c) : c.blob ∈ w.added :=
  List.mem_map.mpr ⟨c, List.mem_append_right _ (List.mem_of_getElem? hc), rfl⟩

/-- What a step encrypts is genuine. -/
theorem managerEncryptions_genuine {log : List Encryption} (h : Tracked P keys ⟨w, log⟩)
    (hstep : managerStep P keys w a = some w') :
    ∀ e ∈ managerEncryptions P keys w a, Genuine P keys w.added e := by
  intro e he
  cases stepped_of_managerStep hstep with
  | opened | notOpened | added | enqueued | flushes | killed =>
    simp [managerEncryptions] at he
  | moved s t c _ pc hs hc hmove =>
    cases a with
    | check t' nonce =>
      cases nonce with
      | none => simp [managerEncryptions] at he
      | some nonce =>
        obtain ⟨s', c', hs', hc', hk⟩ := inCall_eq_some hstep
        simp only [managerEncryptions, hs', hc'] at he
        split at he
        · simp at he
        · obtain ⟨-, cipher, rfl⟩ := Primitives.mem_encryptions he
          refine .blob _ _ _ (mem_added_of_call hc') (h.called c' (List.mem_of_getElem? hc') ?_)
          split at hk
          · assumption
          · cases hk
    | trigger | lock | unlock => simp [managerEncryptions] at he
    | _ => cases hmove
  | wrote s t c _ io m disk _ pc hs hc _ hwrite =>
    simp only [managerEncryptions, hs] at he
    exact writeEncryptions_genuine (h.queue s hs) hwrite he
  | flushWrote s io m disk _ hs _ hwrite =>
    simp only [managerEncryptions, hs] at he
    exact writeEncryptions_genuine (h.queue s hs) hwrite he
  | flushFailed s io m disk _ hs _ hwrite =>
    simp only [managerEncryptions, hs] at he
    exact writeEncryptions_genuine (h.queue s hs) hwrite he
  | flushedIndex s io ix folder _ hs =>
    simp only [managerEncryptions, hs] at he
    exact BlobIndex.flushEncryptions_genuine he

/-- The calls that have not encrypted their blob, and those that have. -/
theorem tracked_calls {log : List Encryption} (h : Tracked P keys ⟨w, log⟩)
    (hstep : managerStep P keys w a = some w') :
    (∀ c ∈ w'.calls, c.pc = .called → c.blob.data.length ≤ blobMaxUncompressedSize) ∧
    ∀ c ∈ w'.calls, ∀ b, c.pc = .encrypted b → b.hash = c.blob.hash ∧ b.kind = c.blob.kind := by
  have hset : ∀ {t : ℕ} {c : AddCall} {pc : AddPc}, pc ≠ .called →
      (∀ b, pc = .encrypted b → b.hash = c.blob.hash ∧ b.kind = c.blob.kind) →
      (∀ c' ∈ w.calls.set t { c with pc := pc }, c'.pc = .called →
        c'.blob.data.length ≤ blobMaxUncompressedSize) ∧
      ∀ c' ∈ w.calls.set t { c with pc := pc }, ∀ b, c'.pc = .encrypted b →
        b.hash = c'.blob.hash ∧ b.kind = c'.blob.kind := by
    intro t c pc hcalled henc
    constructor
    · intro c' hc' hpc
      rcases List.mem_or_eq_of_mem_set hc' with hc' | rfl
      · exact h.called c' hc' hpc
      · exact absurd hpc hcalled
    · intro c' hc' b hpc
      rcases List.mem_or_eq_of_mem_set hc' with hc' | rfl
      · exact h.encrypted c' hc' b hpc
      · exact henc b hpc
  cases stepped_of_managerStep hstep with
  | opened | notOpened => exact ⟨by simp, by simp⟩
  | added s blob pc hs hflush hpc =>
    constructor
    · intro c hc hcalled
      rcases List.mem_append.mp hc with hc | hc
      · exact h.called c hc hcalled
      · obtain rfl := List.mem_singleton.mp hc
        rcases hpc with ⟨rfl, -⟩ | ⟨-, hsize⟩
        · cases hcalled
        · exact hsize
    · intro c hc b henc
      rcases List.mem_append.mp hc with hc | hc
      · exact h.encrypted c hc b henc
      · obtain rfl := List.mem_singleton.mp hc
        rcases hpc with ⟨rfl, -⟩ | ⟨rfl, -⟩ <;> cases henc
  | moved s t c _ pc hs hc hmove =>
    refine hset ?_ ?_
    · generalize c.pc = pc₀ at hmove
      cases hmove <;> simp
    · intro b hb
      generalize c.pc = pc₀ at hmove
      cases hmove with
      | encrypts t nonce b' henc =>
        obtain rfl : b' = b := by simpa using hb
        obtain ⟨data, -, rfl⟩ := Option.map_eq_some_iff.mp henc
        exact ⟨rfl, rfl⟩
      | _ => cases hb
  | enqueued => exact hset (by simp) (by simp)
  | wrote s t c exceeded io m disk r pc hs hc hpc hwrite hr =>
    rcases hr with ⟨e, -, rfl⟩ | ⟨e, -, rfl⟩ <;> exact hset (by simp) (by simp)
  | flushes | flushWrote | flushFailed | flushedIndex => exact ⟨h.called, h.encrypted⟩
  | killed =>
    have hkill : ∀ c ∈ w.calls.map (fun c => { c with pc := c.pc.kill }),
        c.pc ≠ .called ∧ ∀ b, c.pc ≠ .encrypted b := by
      intro c hc
      obtain ⟨c, -, rfl⟩ := List.mem_map.mp hc
      rcases c.pc.kill_cases with ⟨r, -, hk⟩ | hk <;> simp [hk]
    exact ⟨fun c hc hpc => absurd hpc (hkill c hc).1,
      fun c hc b hpc => absurd hpc ((hkill c hc).2 b)⟩

/-- The queue of the manager that is open after a step. -/
theorem tracked_queue {log : List Encryption} (h : Tracked P keys ⟨w, log⟩)
    (hstep : managerStep P keys w a = some w') {s' : Session} (hs' : w'.session = some s') :
    ∀ b ∈ s'.manager.blobs, OfAdded w.added b.hash b.kind := by
  cases stepped_of_managerStep hstep with
  | opened =>
    obtain rfl := Option.some.inj hs'
    simp
  | notOpened | flushFailed | flushedIndex | killed => cases hs'
  | added | moved => exact h.queue s' hs'
  | enqueued s t c blob hs hc hpc =>
    obtain rfl := Option.some.inj hs'
    intro b hb
    rcases List.mem_append.mp hb with hb | hb
    · exact h.queue s hs b hb
    · obtain rfl := List.mem_singleton.mp hb
      obtain ⟨hhash, hkind⟩ := h.encrypted c (List.mem_of_getElem? hc) _ hpc
      exact ⟨c.blob, mem_added_of_call hc, hhash.symm, hkind.symm⟩
  | wrote s t c _ io m disk _ pc hs hc _ hwrite =>
    obtain rfl := Option.some.inj hs'
    intro b hb
    exact h.queue s hs b (writePackfile_blobs hwrite hb)
  | flushes s hs =>
    obtain rfl := Option.some.inj hs'
    exact h.queue s hs
  | flushWrote s io m disk _ hs _ hwrite =>
    obtain rfl := Option.some.inj hs'
    intro b hb
    exact h.queue s hs b (writePackfile_blobs hwrite hb)

end

theorem Tracked.start : Tracked P keys .start where
  genuine := by simp [History.start]
  hashes := by simp [History.start, World.start, World.added]
  called := by simp [History.start, World.start]
  encrypted := by simp [History.start, World.start]
  queue := by simp [History.start, World.start]

/-- A step of the client, and what the adversary does to the folder. -/
theorem tracked_step {h h' : History} {a : HistoryAction} (hI : Tracked P keys h)
    (ha : HashesData P h a) (hstep : historyStep P keys h a = some h') : Tracked P keys h' := by
  cases a with
  | tamper disk =>
    obtain rfl := Option.some.inj hstep
    exact { hI with }
  | client a =>
    obtain ⟨w', hw, rfl⟩ := Option.map_eq_some_iff.mp hstep
    have hsub := added_subset_managerStep hw
    refine ⟨?_, ?_, (tracked_calls hI hw).1, (tracked_calls hI hw).2, ?_⟩
    · intro e he
      rcases List.mem_append.mp he with he | he
      · exact (hI.genuine e he).mono hsub
      · exact (managerEncryptions_genuine hI hw e he).mono hsub
    · intro b hb
      rcases added_managerStep hw with heq | ⟨blob, rfl, heq⟩
      · exact hI.hashes b (heq ▸ hb)
      · rw [show (History.mk w' _).world.added = h.world.added ++ [blob] from heq] at hb
        rcases List.mem_append.mp hb with hb | hb
        · exact hI.hashes b hb
        · obtain rfl := List.mem_singleton.mp hb
          exact ha
    · intro s hs b hb
      exact (tracked_queue hI hw hs b hb).mono hsub

theorem tracked_run {h : History}
    (hreach : Transition.Reach (historyStep P keys) (HashesData P) .start h) : Tracked P keys h :=
  hreach.invariant .start fun _ _ _ => tracked_step

/-! ## 6. What is read back -/

/-- What `get_blob` has found when it returns a blob: a header and the data of the blob, both
accepted by the cipher. -/
theorem readBlob_eq_ok {id : PackfileId} {packfile : Bytes} {hash : BlobHash} {blob : Blob}
    (h : readBlob P keys id packfile hash = .ok blob) :
    ∃ headerBuf plain header entry nonce buf compressed blobData,
      P.decrypt (headerKey P keys) id headerBuf = some plain ∧
      headerCodec.decodeExact plain = some header ∧
      header.find? (fun entry => entry.hash = hash) = some entry ∧
      P.decrypt (blobKey P keys entry.hash) nonce buf = some compressed ∧
      P.decompress compressed blobMaxUncompressedSize = some blobData ∧
      blob = ⟨entry.hash, entry.kind, blobData⟩ := by
  unfold readBlob at h
  split at h
  · cases h
  · split at h
    · cases h
    · rename_i headerSizeBytes rest _
      simp only at h
      split at h
      · cases h
      · split at h
        · cases h
        · rename_i headerBuf data _
          split at h
          · cases h
          · rename_i plain hplain
            split at h
            · cases h
            · rename_i header hheader
              split at h
              · cases h
              · rename_i entry hentry
                unfold readEntry at h
                split at h
                · cases h
                · rename_i nonce more _
                  split at h
                  · cases h
                  · rename_i buf _ _
                    split at h
                    · cases h
                    · rename_i compressed hcompressed
                      split at h
                      · cases h
                      · rename_i blobData hdata
                        exact ⟨headerBuf, plain, header, entry, nonce, buf, compressed, blobData,
                          hplain, hheader, hentry, hcompressed, hdata, (Except.ok.inj h).symm⟩

section

variable {h : History}

/-- What the cipher accepts under a key of the client is genuine. -/
theorem genuine_of_decrypt (hI : Tracked P keys h) (hcipher : AcceptsOnly P keys h.encryptions)
    {info : Bytes} {nonce : Nonce} {cipher plain : Bytes}
    (hdec : P.decrypt (keys.deriveBackupKey P info) nonce cipher = some plain) :
    Genuine P keys h.world.added ⟨keys.deriveBackupKey P info, nonce, plain, cipher⟩ :=
  hI.genuine _ (hcipher info nonce cipher plain hdec)

/-- Under the key of the headers these are headers of blobs that were added. -/
theorem genuine_header {added : List Blob} (hkeys : KeysDistinct P keys added) {nonce : Nonce}
    {plain cipher : Bytes} (hg : Genuine P keys added ⟨headerKey P keys, nonce, plain, cipher⟩) :
    ∃ header, headerCodec.ok header ∧ plain = headerCodec.enc header ∧
      ∀ entry ∈ header, OfAdded added entry.hash entry.kind := by
  generalize hkey : headerKey P keys = key at hg
  cases hg with
  | index => exact absurd hkey.symm hkeys.index_header
  | header _ header _ hok hall => exact ⟨header, hok, rfl, hall⟩
  | blob b => exact absurd hkey.symm (hkeys.blob_header b.hash)

/-- Under the key of a hash these are blobs that were added under this hash. -/
theorem genuine_blob {added : List Blob} (hkeys : KeysDistinct P keys added) {hash : BlobHash}
    {nonce : Nonce} {plain cipher : Bytes}
    (hg : Genuine P keys added ⟨blobKey P keys hash, nonce, plain, cipher⟩) :
    ∃ b ∈ added, b.hash = hash ∧ plain = P.compress b.data ∧
      b.data.length ≤ blobMaxUncompressedSize := by
  generalize hkey : blobKey P keys hash = key at hg
  cases hg with
  | index => exact absurd hkey (hkeys.blob_index hash)
  | header => exact absurd hkey (hkeys.blob_header hash)
  | blob b _ _ hb hsize => exact ⟨b, hb, (hkeys.blob hash b hb hkey).symm, rfl, hsize⟩

/-- Two blobs that were added under one hash have the same data. -/
theorem Tracked.data_eq (hI : Tracked P keys h)
    (hinj : Set.InjOn P.hash {data | ∃ b ∈ h.world.added, b.data = data}) {b b' : Blob}
    (hb : b ∈ h.world.added) (hb' : b' ∈ h.world.added) (heq : b.hash = b'.hash) :
    b.data = b'.data := by
  refine hinj ⟨b, hb, rfl⟩ ⟨b', hb', rfl⟩ ?_
  rw [← hI.hashes b hb, ← hI.hashes b' hb', heq]

variable (hdecompress : ∀ data capacity, data.length ≤ capacity →
    P.decompress (P.compress data) capacity = some data)
  (hI : Tracked P keys h) (hcipher : AcceptsOnly P keys h.encryptions)
  (hkeys : KeysDistinct P keys h.world.added)
  (hinj : Set.InjOn P.hash {data | ∃ b ∈ h.world.added, b.data = data})
include hdecompress hI hcipher hkeys hinj

/-- Whatever file `get_blob` reads, a blob it returns is one that was added under this hash. -/
theorem readBlob_original {id : PackfileId} {packfile : Bytes} {hash : BlobHash} {blob : Blob}
    (hread : readBlob P keys id packfile hash = .ok blob) :
    blob ∈ h.world.added ∧ blob.hash = hash := by
  obtain ⟨headerBuf, plain, header, entry, nonce, buf, compressed, blobData, hplain, hheader, hfind,
    hcompressed, hdata, rfl⟩ := readBlob_eq_ok hread
  obtain ⟨header', hok, rfl, hall⟩ := genuine_header hkeys (genuine_of_decrypt hI hcipher hplain)
  obtain rfl : header' = header :=
    Option.some.inj ((headerCodec.decodeExact_enc hok).symm.trans hheader)
  obtain ⟨b, hb, hbh, rfl, hsize⟩ := genuine_blob hkeys (genuine_of_decrypt hI hcipher hcompressed)
  obtain ⟨p, hp, hph, hpk⟩ := hall entry (List.mem_of_find?_eq_some hfind)
  have heq : entry.hash = hash := by simpa using List.find?_some hfind
  -- the data is that of `b`, the kind that of `p`
  have hbd : blobData = p.data := by
    rw [hdecompress _ _ hsize, Option.some.injEq] at hdata
    rw [← hdata, hI.data_eq hinj hb hp (hbh.trans hph.symm)]
  have hblob : (⟨entry.hash, entry.kind, blobData⟩ : Blob) = p := by
    rw [← hph, ← hpk, hbd]
  exact ⟨hblob ▸ hp, heq⟩

theorem openAndGet_original {names : List FileName} {files : Folder} {disk : Disk}
    {hash : BlobHash} {blob : Blob}
    (hget : openAndGet P keys names files disk hash = .ok (some blob)) :
    blob ∈ h.world.added ∧ blob.hash = hash := by
  unfold openAndGet at hget
  split at hget
  · cases hget
  · unfold Manager.getBlob at hget
    split at hget
    · cases hget
    · rename_i id _
      split at hget
      · cases hget
      · rename_i packfile _
        cases hread : readBlob P keys id packfile hash with
        | error e =>
          rw [hread] at hget
          cases hget
        | ok b =>
          rw [hread] at hget
          obtain rfl := Option.some.inj (Except.ok.inj hget)
          exact readBlob_original hdecompress hI hcipher hkeys hinj hread

end

/-! ## 7. What is restored -/

/-- Every success of the one store is one of the other. -/
def Extends (get get' : GetBlob) : Prop :=
  ∀ hash blob, get hash = .ok (some blob) → get' hash = .ok (some blob)

section

variable {get get' : GetBlob} (hget : Extends get get')
include hget

theorem Extends.fetchTree {hash : BlobHash} {t : Tree} (h : fetchTree get hash = .ok t) :
    Client.fetchTree get' hash = .ok t := by
  cases hres : get hash with
  | error e => simp [Client.fetchTree, hres] at h
  | ok r =>
    cases r with
    | none => simp [Client.fetchTree, hres] at h
    | some blob =>
      simp only [Client.fetchTree, hres] at h
      simp only [Client.fetchTree, hget hash blob hres]
      exact h

theorem Extends.fetchSiblings {fuel : ℕ} {next : Option BlobHash} {children : List BlobHash}
    (h : fetchSiblings get fuel next = .ok children) :
    Client.fetchSiblings get' fuel next = .ok children := by
  induction fuel generalizing next children with
  | zero =>
    cases next with
    | none => simpa [Client.fetchSiblings] using h
    | some hash => simp [Client.fetchSiblings] at h
  | succ fuel ih =>
    cases next with
    | none => simpa [Client.fetchSiblings] using h
    | some hash =>
      simp only [Client.fetchSiblings] at h ⊢
      split at h
      · cases h
      · rename_i tree htree
        rw [hget.fetchTree htree]
        split at h
        · cases h
        · rename_i more hmore
          simp only [ih hmore]
          exact h

theorem Extends.fetchFullTree {fuel : ℕ} {hash : BlobHash} {t : Tree}
    (h : fetchFullTree get fuel hash = .ok t) : Client.fetchFullTree get' fuel hash = .ok t := by
  unfold Client.fetchFullTree at h ⊢
  split at h
  · cases h
  · rename_i tree htree
    rw [hget.fetchTree htree]
    split at h
    · cases h
    · rename_i children hchildren
      simp only [hget.fetchSiblings hchildren]
      exact h

theorem Extends.readChunks {hashes : List BlobHash} (h : (readChunks get hashes).2 = true) :
    Client.readChunks get' hashes = Client.readChunks get hashes := by
  induction hashes with
  | nil => rfl
  | cons hash hashes ih =>
    unfold Client.readChunks at h ⊢
    split at h
    · rename_i blob hblob
      simp only [hget hash blob hblob, ih h]
    · cases h

end

/-- A store of the blobs that were added: it has all of them, and nothing else. -/
structure Original (added : List Blob) (get : GetBlob) : Prop where
  sound : ∀ hash blob, get hash = .ok (some blob) → blob ∈ added ∧ blob.hash = hash
  complete : ∀ b ∈ added, ∃ blob, get b.hash = .ok (some blob)

/-- What a store does not answer is answered from the list. -/
def answers (added : List Blob) (get : GetBlob) : GetBlob := fun hash =>
  match get hash with
  | .ok (some blob) => .ok (some blob)
  | _ => .ok (added.find? fun b => b.hash = hash)

/-- A store that answers with original blobs is part of one that has all of them. -/
theorem exists_original {added : List Blob} {get : GetBlob}
    (h : ∀ hash blob, get hash = .ok (some blob) → blob ∈ added ∧ blob.hash = hash) :
    ∃ get', Original added get' ∧ Extends get get' := by
  refine ⟨answers added get, ⟨?_, ?_⟩, ?_⟩
  · intro hash blob hblob
    unfold answers at hblob
    split at hblob
    · rename_i blob' hget
      simp only [Except.ok.injEq, Option.some.injEq] at hblob
      exact h hash blob (hblob ▸ hget)
    · have hfind := Except.ok.inj hblob
      exact ⟨List.mem_of_find?_eq_some hfind, by simpa using List.find?_some hfind⟩
  · intro b hb
    unfold answers
    split
    · rename_i blob _
      exact ⟨blob, rfl⟩
    · obtain ⟨blob, hblob⟩ := Option.isSome_iff_exists.mp
        (List.find?_isSome.mpr ⟨b, hb, by simp⟩ :
          (added.find? fun b' => b'.hash = b.hash).isSome = true)
      exact ⟨blob, by rw [hblob]⟩
  · intro hash blob hget
    simp only [answers, hget]

/-- Whatever an adversary without the keys has done to the folder, at the end and before:
`get_blob` returns an error, `None` or a blob that was added under this hash, with its data, and
a tree that is fetched or a file that is restored is what a store of the original blobs
yields. -/
theorem tampered_yields_original {h : History}
    (hdecompress : ∀ data capacity, data.length ≤ capacity →
      P.decompress (P.compress data) capacity = some data)
    (hreach : Transition.Reach (historyStep P keys) (HashesData P) .start h)
    (hcipher : AcceptsOnly P keys h.encryptions) (hkeys : KeysDistinct P keys h.world.added)
    (hinj : Set.InjOn P.hash {data | ∃ b ∈ h.world.added, b.data = data})
    (names : List FileName) (files : Folder) (disk : Disk) :
    (∀ hash blob, openAndGet P keys names files disk hash = .ok (some blob) →
      blob ∈ h.world.added ∧ blob.hash = hash ∧
        ∀ b ∈ h.world.added, b.hash = hash → blob.data = b.data) ∧
    ∃ original, Original h.world.added original ∧
      (∀ fuel hash t, fetchFullTree (openAndGet P keys names files disk) fuel hash = .ok t →
        fetchFullTree original fuel hash = .ok t) ∧
      ∀ dest file, (readChunks (openAndGet P keys names files disk) file.1.children).2 = true →
        restoreFile (openAndGet P keys names files disk) dest file
          = restoreFile original dest file := by
  have hI := tracked_run hreach
  have hget : ∀ hash blob, openAndGet P keys names files disk hash = .ok (some blob) →
      blob ∈ h.world.added ∧ blob.hash = hash := fun hash blob hblob =>
    openAndGet_original hdecompress hI hcipher hkeys hinj hblob
  constructor
  · intro hash blob hblob
    obtain ⟨hmem, hhash⟩ := hget hash blob hblob
    exact ⟨hmem, hhash, fun b hb hbh => hI.data_eq hinj hmem hb (hhash.trans hbh.symm)⟩
  · obtain ⟨original, horig, hext⟩ := exists_original hget
    refine ⟨original, horig, fun fuel hash t ht => hext.fetchFullTree ht, ?_⟩
    intro dest file hok
    simp only [restoreFile, hext.readChunks hok]

/-- One blob is added and written. -/
def tamperedRun : List HistoryAction :=
  [.client (.openManager [] [] 0), .client (.addBlob sampleBlob),
    .client (.check 0 (some (FixedBytes.fill 7))), .client (.enqueue 0), .client (.trigger 0),
    .client .flush, .client (.flushWrite ⟨FixedBytes.fill 9, .ok, fun _ => .ok⟩),
    .client (.flushIndex .ok)]

/-- A byte is appended to every packfile. -/
def appendByte (disk : Disk) : Disk :=
  { disk with packfiles := fun id => (disk.packfiles id).map fun content => content ++ [0] }

/-- A key for each purpose, and a cipher that accepts nothing. -/
def sealing : Primitives :=
  { Primitives.transparent with
    decrypt := fun _ _ _ => none
    hkdfExpand := fun _ info =>
      if info = indexKeyInfo then FixedBytes.fill 1
      else if info = headerKeyInfo then FixedBytes.fill 2
      else if info = sampleBlob.hash.bytes then FixedBytes.fill 3
      else FixedBytes.fill 4 }

def tamperedRunLog : List Encryption :=
  [⟨FixedBytes.fill 3, FixedBytes.fill 7, [1, 2, 3],
      sealing.encrypt (FixedBytes.fill 3) (FixedBytes.fill 7) [1, 2, 3]⟩,
    ⟨FixedBytes.fill 2, FixedBytes.fill 9,
      headerCodec.enc [⟨sampleBlob.hash, .fileChunk, .zstd, 19, 0⟩],
      sealing.encrypt (FixedBytes.fill 2) (FixedBytes.fill 9)
        (headerCodec.enc [⟨sampleBlob.hash, .fileChunk, .zstd, 19, 0⟩])⟩,
    ⟨FixedBytes.fill 1, counterToNonce 1, entriesCodec.enc [(sampleBlob.hash, FixedBytes.fill 9)],
      sealing.encrypt (FixedBytes.fill 1) (counterToNonce 1)
        (entriesCodec.enc [(sampleBlob.hash, FixedBytes.fill 9)])⟩]

/-- The cipher that accepts what is encrypted in that run. -/
def recording : Primitives :=
  { sealing with
    decrypt := fun key nonce cipher =>
      (tamperedRunLog.find? fun e => e.key = key ∧ e.nonce = nonce ∧ e.cipher = cipher).map
        Encryption.plain }

theorem recording_acceptsOnly : AcceptsOnly recording sampleKeys tamperedRunLog := by
  intro info nonce cipher plain h
  obtain ⟨e, he, rfl⟩ := Option.map_eq_some_iff.mp h
  have hp := List.find?_some he
  simp only [decide_eq_true_eq] at hp
  obtain ⟨hk, hn, hc⟩ := hp
  rw [← hk, ← hn, ← hc]
  exact List.mem_of_find?_eq_some he

/-- A blob key is the one of the sample or that of all other hashes. -/
theorem recording_blobKey (hash : BlobHash) :
    blobKey recording sampleKeys hash
      = if hash = sampleBlob.hash then FixedBytes.fill 3 else FixedBytes.fill 4 := by
  have hi : hash.bytes ≠ indexKeyInfo := by
    intro h
    have := congrArg List.length h
    rw [hash.length_eq] at this
    cases this
  have hh : hash.bytes ≠ headerKeyInfo := by
    intro h
    have := congrArg List.length h
    rw [hash.length_eq] at this
    cases this
  have heq : hash.bytes = sampleBlob.hash.bytes ↔ hash = sampleBlob.hash :=
    ⟨fun h => FixedBytes.ext' h, fun h => by rw [h]⟩
  simp only [blobKey, KeyManager.deriveBackupKey, recording, sealing, if_neg hi, if_neg hh, heq]

theorem recording_keysDistinct : KeysDistinct recording sampleKeys [sampleBlob] where
  index_header := by decide +kernel
  blob_index hash := by
    rw [recording_blobKey]
    split <;> decide +kernel
  blob_header hash := by
    rw [recording_blobKey]
    split <;> decide +kernel
  blob hash b hb h := by
    obtain rfl := List.mem_singleton.mp hb
    rw [recording_blobKey, recording_blobKey, if_pos rfl] at h
    split at h
    · assumption
    · exact absurd h (by decide +kernel)

/-- The blob is still read, with its data. -/
theorem tampered_yields_original_one : ∃ (h : History) (blob : Blob),
    Transition.run (historyStep recording sampleKeys) .start tamperedRun = some h ∧
    openAndGet recording sampleKeys [] h.world.disk.index (appendByte h.world.disk)
      sampleBlob.hash = .ok (some blob) ∧ blob.data = [1, 2, 3] := by
  obtain ⟨h, hrun, hlog, hadd, hget⟩ : ∃ h,
      Transition.run (historyStep recording sampleKeys) .start tamperedRun = some h ∧
      h.encryptions = tamperedRunLog ∧ h.world.added = [sampleBlob] ∧
      openAndGet recording sampleKeys [] h.world.disk.index (appendByte h.world.disk)
        sampleBlob.hash = .ok (some sampleBlob) := ⟨_, rfl, rfl, rfl, rfl⟩
  have hok : ∀ a ∈ tamperedRun, ∀ h, HashesData recording h a := by
    simp [tamperedRun, HashesData, sampleBlob, recording, sealing]
  have hreach := Transition.reach_of_run hok hrun
  have hinj : Set.InjOn recording.hash {data | ∃ b ∈ h.world.added, b.data = data} := by
    rw [hadd]
    rintro _ ⟨a, ha, rfl⟩ _ ⟨b, hb, rfl⟩ -
    rw [List.mem_singleton.mp ha, List.mem_singleton.mp hb]
  obtain ⟨horig, -⟩ := @tampered_yields_original recording sampleKeys h
    Primitives.transparent_lawful.decompress_compress hreach
    (hlog ▸ recording_acceptsOnly) (hadd ▸ recording_keysDistinct) hinj
    [] h.world.disk.index (appendByte h.world.disk)
  obtain ⟨-, -, hdata⟩ := horig _ _ hget
  exact ⟨h, sampleBlob, hrun, hget,
    hdata sampleBlob (by rw [hadd]; exact List.mem_cons_self) rfl⟩

end Backuwup.Client
