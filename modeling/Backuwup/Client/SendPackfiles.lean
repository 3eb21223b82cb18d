/-
# Sending packfiles while they are written

The packing task (`write_packfiles`) creates each packfile at its final path and fills it with
one or more partial writes; the sending task (`send_packfiles_from_folder`,
`send_single_packfile`) lists the same folder, reads a file, waits for the acknowledgement of
the peer and deletes the file.  Neither a lock nor a marker tells the sender that a file is
finished.

The steps of both tasks interleave freely here.  `packfiles_safe` is what holds of the runs in
which the sender only reads files whose `write_all` has returned: what it deletes is a buffer in
full, and every recorded packfile is whole on disk or with a peer.  The invariant is `Intact`.
A read between two partial writes loses the rest of the packfile (`partial_packfile_deleted`).

Packfiles are identified by their ids; the subfolders, whose names are a prefix of the id, and
the accounting of bytes are left out.
-/
import Backuwup.Lib.Transition
import Backuwup.Shared.Types
import Mathlib.Data.List.Nodup

namespace Backuwup.Client

/-! ## 1. The state -/

/-- A file in the packfile folder. -/
structure LocalPackfile where
  id : PackfileId
  content : Bytes
  /-- `write_all` has returned `Ok`; nothing on disk says so -/
  whole : Bool
deriving DecidableEq

/-- Where `write_packfiles` is. -/
inductive WriterPc
  | idle
  /-- `serialize_packfile` has returned -/
  | serialized (id : PackfileId) (buffer : Bytes)
  /-- the file is open and `rest` is still to be written -/
  | writing (id : PackfileId) (buffer rest : Bytes)
  | written (id : PackfileId) (buffer : Bytes)
deriving DecidableEq

/-- Where `send_single_packfile` is. -/
inductive SinglePc
  | idle
  /-- the content has been read and is sent -/
  | sending (id : PackfileId) (content : Bytes)
  | acknowledged (id : PackfileId) (content : Bytes)
deriving DecidableEq

/-- Both tasks and their folder, with what has been built, recorded in the index, acknowledged
by some peer, and deleted after which acknowledgement. -/
structure PackfileFolder where
  files : List LocalPackfile
  writer : WriterPc
  sender : SinglePc
  built : List (PackfileId × Bytes)
  finalized : List (PackfileId × Bytes)
  acked : List (PackfileId × Bytes)
  deleted : List (PackfileId × Bytes)
deriving DecidableEq

namespace PackfileFolder

def start : PackfileFolder := ⟨[], .idle, .idle, [], [], [], []⟩

/-- Append to the file that is being written. -/
def appendTo (files : List LocalPackfile) (id : PackfileId) (chunk : Bytes) :
    List LocalPackfile :=
  files.map fun f => if f.id = id then { f with content := f.content ++ chunk } else f

/-- `write_all` has returned. -/
def markWhole (files : List LocalPackfile) (id : PackfileId) : List LocalPackfile :=
  files.map fun f => if f.id = id then { f with whole := true } else f

def removeFile (files : List LocalPackfile) (id : PackfileId) : List LocalPackfile :=
  files.filter fun f => f.id ≠ id

end PackfileFolder

/-! ## 2. The steps -/

inductive PackfileAction
  | serialize (id : PackfileId) (buffer : Bytes)
  /-- `create_dir_all` and `open` with `create_new` -/
  | create (ok : Bool)
  /-- one write of so many bytes -/
  | write (n : ℕ)
  | writeFails
  /-- `write_all` returns -/
  | writeDone
  /-- `finalize_packfile`; an error in it comes after the packfile has been recorded -/
  | finalize
  /-- the sender has listed the folder, and reads a file -/
  | read (file : LocalPackfile)
  | ack
  /-- `send_data` returns an error or times out -/
  | sendFails
  | remove
  /-- `peer_increment_transmitted` or `remove_file` returns an error -/
  | removeFails
deriving DecidableEq

open PackfileFolder in
def packfileStep (s : PackfileFolder) : PackfileAction → Option PackfileFolder
  | .serialize id buffer =>
    match s.writer with
    | .idle => some { s with writer := .serialized id buffer, built := (id, buffer) :: s.built }
    | _ => none
  | .create ok =>
    match s.writer with
    | .serialized id buffer =>
      -- an existing file is never overwritten
      if ok ∧ id ∉ s.files.map LocalPackfile.id then
        some { s with files := ⟨id, [], false⟩ :: s.files, writer := .writing id buffer buffer }
      else some { s with writer := .idle }
    | _ => none
  | .write n =>
    match s.writer with
    | .writing id buffer rest =>
      some { s with
        files := appendTo s.files id (rest.take n), writer := .writing id buffer (rest.drop n) }
    | _ => none
  | .writeFails =>
    match s.writer with
    | .writing _ _ _ => some { s with writer := .idle }
    | _ => none
  | .writeDone =>
    match s.writer with
    | .writing id buffer [] =>
      some { s with files := markWhole s.files id, writer := .written id buffer }
    | _ => none
  | .finalize =>
    match s.writer with
    | .written id buffer =>
      some { s with writer := .idle, finalized := (id, buffer) :: s.finalized }
    | _ => none
  | .read file =>
    if s.sender = .idle ∧ file ∈ s.files then
      some { s with sender := .sending file.id file.content }
    else none
  | .ack =>
    match s.sender with
    | .sending id content =>
      some { s with sender := .acknowledged id content, acked := (id, content) :: s.acked }
    | _ => none
  | .sendFails =>
    match s.sender with
    | .sending _ _ => some { s with sender := .idle }
    | _ => none
  | .remove =>
    match s.sender with
    | .acknowledged id content =>
      some { s with
        files := removeFile s.files id, sender := .idle, deleted := (id, content) :: s.deleted }
    | _ => none
  | .removeFails =>
    match s.sender with
    | .acknowledged _ _ => some { s with sender := .idle }
    | _ => none

/-! ## 3. The property and its condition -/

/-- Whatever was deleted had been acknowledged as the complete buffer built for its id, and
every recorded packfile exists in full on the disk or at a peer. -/
structure PackfileFolder.Safe (s : PackfileFolder) : Prop where
  deleted : ∀ p ∈ s.deleted, p ∈ s.acked ∧ p ∈ s.built
  finalized : ∀ p ∈ s.finalized, (∃ f ∈ s.files, (f.id, f.content) = p) ∨ p ∈ s.acked

/-- The condition on a step: the sender reads a file after its `write_all` has returned. -/
def ReadsWhole (_ : PackfileFolder) : PackfileAction → Prop
  | .read file => file.whole = true
  | _ => True

/-! ## 4. The invariant -/

/-- The buffer is whole on the disk, or at a peer. -/
def PackfileFolder.Kept (s : PackfileFolder) (id : PackfileId) (buffer : Bytes) : Prop :=
  (⟨id, buffer, true⟩ : LocalPackfile) ∈ s.files ∨ (id, buffer) ∈ s.acked

/-- Ids are unique on the disk, whole files are whole buffers, the file being written is a
prefix of its buffer, and what the sender holds is a whole file that is still there. -/
structure Intact (s : PackfileFolder) : Prop where
  unique : (s.files.map LocalPackfile.id).Nodup
  whole : ∀ f ∈ s.files, f.whole = true → (f.id, f.content) ∈ s.built
  serialized : ∀ id buffer, s.writer = .serialized id buffer → (id, buffer) ∈ s.built
  writing : ∀ id buffer rest, s.writer = .writing id buffer rest → (id, buffer) ∈ s.built ∧
    ∃ content, ⟨id, content, false⟩ ∈ s.files ∧ content ++ rest = buffer
  written : ∀ id buffer, s.writer = .written id buffer → s.Kept id buffer
  sending : ∀ id content, s.sender = .sending id content → ⟨id, content, true⟩ ∈ s.files
  acknowledged : ∀ id content, s.sender = .acknowledged id content →
    ⟨id, content, true⟩ ∈ s.files ∧ (id, content) ∈ s.acked
  finalized : ∀ p ∈ s.finalized, s.Kept p.1 p.2
  deleted : ∀ p ∈ s.deleted, p ∈ s.acked ∧ p ∈ s.built

namespace Intact

open PackfileFolder

variable {s : PackfileFolder}

theorem start : Intact .start := by
  constructor <;> simp [PackfileFolder.start]

/-- Two files with one id are the same. -/
theorem eq_of_id (h : Intact s) {f g : LocalPackfile} (hf : f ∈ s.files) (hg : g ∈ s.files)
    (hid : f.id = g.id) : f = g :=
  List.inj_on_of_nodup_map h.unique hf hg hid

/-- A whole file is not the one being written. -/
theorem id_ne_of_writing (h : Intact s) {id id' : PackfileId} {buffer rest content : Bytes}
    (hw : s.writer = .writing id' buffer rest) (hf : ⟨id, content, true⟩ ∈ s.files) :
    id ≠ id' := by
  rintro rfl
  obtain ⟨-, content', hmem, -⟩ := h.writing _ _ _ hw
  exact absurd (h.eq_of_id hf hmem rfl) (by simp)

end Intact

theorem mem_map_of_id_ne {files : List LocalPackfile} {id : PackfileId}
    {g : LocalPackfile → LocalPackfile} {f : LocalPackfile} (hf : f ∈ files) (hne : f.id ≠ id) :
    f ∈ files.map fun f => if f.id = id then g f else f :=
  List.mem_map.mpr ⟨f, hf, if_neg hne⟩

/-- Changing the content of one file changes no id. -/
theorem map_id_map {files : List LocalPackfile} {id : PackfileId}
    {g : LocalPackfile → LocalPackfile} (hg : ∀ f, (g f).id = f.id) :
    (files.map fun f => if f.id = id then g f else f).map LocalPackfile.id
      = files.map LocalPackfile.id := by
  rw [List.map_map]
  refine List.map_congr_left ?_
  intro f _
  simp only [Function.comp_apply]
  split
  · exact hg f
  · rfl

namespace Intact

open PackfileFolder

variable {s : PackfileFolder}

/-- The writer goes back to work on nothing. -/
theorem writerIdle (h : Intact s) : Intact { s with writer := .idle } where
  unique := h.unique
  whole := h.whole
  serialized _ _ hw := by cases hw
  writing _ _ _ hw := by cases hw
  written _ _ hw := by cases hw
  sending := h.sending
  acknowledged := h.acknowledged
  finalized := h.finalized
  deleted := h.deleted

/-- The sender lets go of what it holds. -/
theorem senderIdle (h : Intact s) : Intact { s with sender := .idle } where
  unique := h.unique
  whole := h.whole
  serialized := h.serialized
  writing := h.writing
  written := h.written
  sending _ _ hs := by cases hs
  acknowledged _ _ hs := by cases hs
  finalized := h.finalized
  deleted := h.deleted

theorem serialize (h : Intact s) (id : PackfileId) (buffer : Bytes) :
    Intact { s with writer := .serialized id buffer, built := (id, buffer) :: s.built } where
  unique := h.unique
  whole f hf hw := List.mem_cons_of_mem _ (h.whole f hf hw)
  serialized _ _ hw := by
    obtain ⟨rfl, rfl⟩ := WriterPc.serialized.inj hw
    exact List.mem_cons_self
  writing _ _ _ hw := by cases hw
  written _ _ hw := by cases hw
  sending := h.sending
  acknowledged := h.acknowledged
  finalized := h.finalized
  deleted p hp := (h.deleted p hp).imp_right (List.mem_cons_of_mem _)

theorem create (h : Intact s) {id : PackfileId} {buffer : Bytes}
    (hw : s.writer = .serialized id buffer) (hfresh : id ∉ s.files.map LocalPackfile.id) :
    Intact { s with files := ⟨id, [], false⟩ :: s.files, writer := .writing id buffer buffer } where
  unique := List.nodup_cons.mpr ⟨hfresh, h.unique⟩
  whole f hf hwhole := by
    rcases List.mem_cons.mp hf with rfl | hf
    · cases hwhole
    · exact h.whole f hf hwhole
  serialized _ _ hw := by cases hw
  writing _ _ _ hw' := by
    obtain ⟨rfl, rfl, rfl⟩ := WriterPc.writing.inj hw'
    exact ⟨h.serialized _ _ hw, [], List.mem_cons_self, rfl⟩
  written _ _ hw := by cases hw
  sending _ _ hs := List.mem_cons_of_mem _ (h.sending _ _ hs)
  acknowledged _ _ hs := (h.acknowledged _ _ hs).imp_left (List.mem_cons_of_mem _)
  finalized p hp := (h.finalized p hp).imp_left (List.mem_cons_of_mem _)
  deleted := h.deleted

/-- A partial write only touches the file being written, which no one has read. -/
theorem write (h : Intact s) {id : PackfileId} {buffer rest : Bytes}
    (hw : s.writer = .writing id buffer rest) (n : ℕ) :
    Intact { s with
      files := appendTo s.files id (rest.take n), writer := .writing id buffer (rest.drop n) } := by
  have hkeep : ∀ {id' content'}, (⟨id', content', true⟩ : LocalPackfile) ∈ s.files →
      (⟨id', content', true⟩ : LocalPackfile) ∈ appendTo s.files id (rest.take n) :=
    fun hmem => mem_map_of_id_ne hmem (h.id_ne_of_writing hw hmem)
  obtain ⟨hbuilt, content, hmem, hcontent⟩ := h.writing _ _ _ hw
  refine ⟨?_, ?_, fun _ _ hw => (by cases hw), ?_, fun _ _ hw => (by cases hw),
    fun _ _ hs => hkeep (h.sending _ _ hs), fun _ _ hs => (h.acknowledged _ _ hs).imp_left hkeep,
    fun p hp => (h.finalized p hp).imp_left hkeep, h.deleted⟩
  · have hids : (appendTo s.files id (rest.take n)).map LocalPackfile.id
        = s.files.map LocalPackfile.id := map_id_map fun _ => rfl
    rw [hids]
    exact h.unique
  · intro f hf hwhole
    obtain ⟨g, hg, rfl⟩ := List.mem_map.mp hf
    split at hwhole
    · rename_i hid
      -- the written file is not whole
      rw [if_pos hid]
      exact absurd (h.eq_of_id hg hmem hid ▸ hwhole) (by simp)
    · rename_i hid
      rw [if_neg hid]
      exact h.whole g hg hwhole
  · intro _ _ _ hw'
    obtain ⟨rfl, rfl, rfl⟩ := WriterPc.writing.inj hw'
    refine ⟨hbuilt, content ++ rest.take n, ?_, ?_⟩
    · exact List.mem_map.mpr ⟨_, hmem, if_pos rfl⟩
    · rw [List.append_assoc, List.take_append_drop, hcontent]

theorem writeDone (h : Intact s) {id : PackfileId} {buffer : Bytes}
    (hw : s.writer = .writing id buffer []) :
    Intact { s with files := markWhole s.files id, writer := .written id buffer } := by
  have hkeep : ∀ {id' content'}, (⟨id', content', true⟩ : LocalPackfile) ∈ s.files →
      (⟨id', content', true⟩ : LocalPackfile) ∈ markWhole s.files id :=
    fun hmem => mem_map_of_id_ne hmem (h.id_ne_of_writing hw hmem)
  obtain ⟨hbuilt, content, hmem, hcontent⟩ := h.writing _ _ _ hw
  rw [List.append_nil] at hcontent
  subst hcontent
  refine ⟨?_, ?_, fun _ _ hw => (by cases hw), fun _ _ _ hw => (by cases hw), ?_,
    fun _ _ hs => hkeep (h.sending _ _ hs), fun _ _ hs => (h.acknowledged _ _ hs).imp_left hkeep,
    fun p hp => (h.finalized p hp).imp_left hkeep, h.deleted⟩
  · have hids : (markWhole s.files id).map LocalPackfile.id
        = s.files.map LocalPackfile.id := map_id_map fun _ => rfl
    rw [hids]
    exact h.unique
  · intro f hf hwhole
    obtain ⟨g, hg, rfl⟩ := List.mem_map.mp hf
    split
    · rename_i hid
      obtain rfl := h.eq_of_id hg hmem hid
      exact hbuilt
    · rename_i hid
      rw [if_neg hid] at hwhole
      exact h.whole g hg hwhole
  · intro _ _ hw'
    obtain ⟨rfl, rfl⟩ := WriterPc.written.inj hw'
    exact Or.inl (List.mem_map.mpr ⟨_, hmem, if_pos rfl⟩)

theorem finalize (h : Intact s) {id : PackfileId} {buffer : Bytes}
    (hw : s.writer = .written id buffer) :
    Intact { s with writer := .idle, finalized := (id, buffer) :: s.finalized } :=
  { h.writerIdle with
    finalized := fun p hp => by
      rcases List.mem_cons.mp hp with rfl | hp
      · exact h.written _ _ hw
      · exact h.finalized p hp }

theorem read (h : Intact s) {f : LocalPackfile} (hf : f ∈ s.files) (hwhole : f.whole = true) :
    Intact { s with sender := .sending f.id f.content } where
  unique := h.unique
  whole := h.whole
  serialized := h.serialized
  writing := h.writing
  written := h.written
  sending _ _ hs := by
    obtain ⟨rfl, rfl⟩ := SinglePc.sending.inj hs
    exact hwhole ▸ hf
  acknowledged _ _ hs := by cases hs
  finalized := h.finalized
  deleted := h.deleted

theorem ack (h : Intact s) {id : PackfileId} {content : Bytes}
    (hs : s.sender = .sending id content) :
    Intact { s with sender := .acknowledged id content, acked := (id, content) :: s.acked } where
  unique := h.unique
  whole := h.whole
  serialized := h.serialized
  writing := h.writing
  written _ _ hw := (h.written _ _ hw).imp_right (List.mem_cons_of_mem _)
  sending _ _ hs := by cases hs
  acknowledged _ _ hs' := by
    obtain ⟨rfl, rfl⟩ := SinglePc.acknowledged.inj hs'
    exact ⟨h.sending _ _ hs, List.mem_cons_self⟩
  finalized p hp := (h.finalized p hp).imp_right (List.mem_cons_of_mem _)
  deleted p hp := (h.deleted p hp).imp_left (List.mem_cons_of_mem _)

/-- The deletion takes away a whole file that a peer has acknowledged, and no other. -/
theorem remove (h : Intact s) {id : PackfileId} {content : Bytes}
    (hs : s.sender = .acknowledged id content) :
    Intact { s with
      files := removeFile s.files id, sender := .idle, deleted := (id, content) :: s.deleted } := by
  obtain ⟨hmem, hack⟩ := h.acknowledged _ _ hs
  have hkept : ∀ {id' buffer}, s.Kept id' buffer →
      ⟨id', buffer, true⟩ ∈ removeFile s.files id ∨ (id', buffer) ∈ s.acked := by
    rintro id' buffer (hk | hk)
    · by_cases hid : id' = id
      · have heq := h.eq_of_id hk hmem hid
        rw [LocalPackfile.mk.injEq] at heq
        exact Or.inr (heq.1 ▸ heq.2.1 ▸ hack)
      · exact Or.inl (List.mem_filter.mpr ⟨hk, by simpa using hid⟩)
    · exact Or.inr hk
  refine ⟨?_, ?_, h.serialized, ?_, fun _ _ hw => hkept (h.written _ _ hw),
    fun _ _ hs => (by cases hs), fun _ _ hs => (by cases hs),
    fun p hp => hkept (h.finalized p hp), ?_⟩
  · exact h.unique.sublist (List.filter_sublist.map _)
  · intro f hf hw
    exact h.whole f (List.mem_of_mem_filter hf) hw
  · intro id' buffer rest hw
    obtain ⟨hbuilt, content', hmem', hcontent⟩ := h.writing _ _ _ hw
    have hne := h.id_ne_of_writing hw hmem
    exact ⟨hbuilt, content', List.mem_filter.mpr ⟨hmem', by simpa using hne.symm⟩, hcontent⟩
  · intro p hp
    rcases List.mem_cons.mp hp with rfl | hp
    · exact ⟨hack, h.whole _ hmem rfl⟩
    · exact h.deleted p hp

theorem safe (h : Intact s) : s.Safe where
  deleted := h.deleted
  finalized p hp := (h.finalized p hp).imp_left fun hf => ⟨_, hf, rfl⟩

end Intact

/-- One step keeps both tasks intact. -/
theorem intact_step {s s' : PackfileFolder} {a : PackfileAction} (h : Intact s)
    (hok : ReadsWhole s a) (hstep : packfileStep s a = some s') : Intact s' := by
  cases a <;> simp only [packfileStep] at hstep
  case create ok =>
    split at hstep
    · rename_i id buffer hw
      split at hstep <;> obtain rfl := Option.some.inj hstep
      · rename_i hnew
        exact h.create hw hnew.2
      · exact h.writerIdle
    · cases hstep
  case read file =>
    obtain ⟨⟨-, hmem⟩, hstep⟩ := Option.ite_none_right_eq_some.mp hstep
    obtain rfl := Option.some.inj hstep
    exact h.read hmem hok
  all_goals
    split at hstep
    · rename_i hpc
      obtain rfl := Option.some.inj hstep
      first
        | exact h.serialize _ _
        | exact h.write hpc _
        | exact h.writeDone hpc
        | exact h.finalize hpc
        | exact h.ack hpc
        | exact h.remove hpc
        | exact h.writerIdle
        | exact h.senderIdle
    · cases hstep

/-! ## 5. Runs -/

/-- In every run whose sender reads whole files only, every reachable state is safe. -/
theorem packfiles_safe {s : PackfileFolder}
    (h : Transition.Reach packfileStep ReadsWhole .start s) : s.Safe :=
  (h.invariant Intact.start fun _ _ _ hi hok hst => intact_step hi hok hst).safe

/-- The packfile of the runs below. -/
def samplePackfile : PackfileId × Bytes := (FixedBytes.fill 1, [10, 20, 30])

/-- A packfile that is sent after it has been written in two parts. -/
theorem packfiles_safe_two_writes : ∃ s : PackfileFolder, s.Safe ∧
    s.files = [] ∧ s.finalized = [samplePackfile] ∧ s.deleted = [samplePackfile] :=
  ⟨_, packfiles_safe <|
    .head (.serialize samplePackfile.1 samplePackfile.2) trivial rfl <|
    .head (.create true) trivial rfl <| .head (.write 1) trivial rfl <|
    .head (.write 2) trivial rfl <| .head .writeDone trivial rfl <|
    .head (.read ⟨samplePackfile.1, samplePackfile.2, true⟩) rfl rfl <|
    .head .ack trivial rfl <| .head .finalize trivial rfl <| .head .remove trivial rfl .refl,
    rfl, rfl, rfl⟩

/-- The sender reads the packfile after the first of its two parts. -/
def earlyRead : List PackfileAction :=
  [.serialize samplePackfile.1 samplePackfile.2, .create true, .write 1,
    .read ⟨samplePackfile.1, [10], false⟩, .ack, .remove, .write 2, .writeDone, .finalize]

/-- The packfile is recorded and deleted, and no more than its first byte has been
acknowledged. -/
theorem partial_packfile_deleted :
    ∃ s, Transition.run packfileStep .start earlyRead = some s ∧
      s.files = [] ∧ s.finalized = [samplePackfile] ∧ s.built = [samplePackfile] ∧
      s.deleted = [(samplePackfile.1, [10])] ∧ s.acked = [(samplePackfile.1, [10])] :=
  ⟨_, rfl, rfl, rfl, rfl, rfl, rfl⟩

end Backuwup.Client
