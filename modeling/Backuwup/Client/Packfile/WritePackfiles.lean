/-
# The loop of `write_packfiles` (`packfile/pack.rs`)

`write_packfiles` makes packfiles until the queue is empty, and asserts of each that it is no
larger than `PACKFILE_MAX_SIZE`.  `writePackfile` is one iteration; here is the loop around it,
with a log of what each iteration pops and makes.

The queue gets shorter with every iteration, so the loop ends (`writePackfiles_spec`).  What it
pops, in order, is the queue.  A blob in the queue is not larger than what the compressor and the
cipher make of 3 MiB (`Sized`), hence no packfile exceeds the limit by which it is asserted and
by which `get_blob` refuses to read it (`size_assertion_unreachable`).
-/
import Backuwup.Client.Packfile.Transportable

namespace Backuwup.Client

open Transition

/-! ## 1. The loop -/

/-- What one iteration pops off the queue, and the header and the buffer of the packfile that it
makes of that. -/
structure Iteration where
  popped : List BlobEncrypted
  header : List PackfileHeaderBlob
  buffer : Option Bytes

inductive LoopEnd
  | emptied (bufferLimitExceeded : Bool)
  | failed (e : PackfileError)
  | panicked
deriving DecidableEq

namespace Manager

/-- What the next iteration pops and makes, if its packfile gets this id. -/
def iteration (P : Primitives) (keys : KeyManager) (m : Manager) (id : PackfileId) : Iteration :=
  match fillDraft m.index .empty m.blobs with
  | (_, draft, rest, .error _) => ⟨m.blobs.take (m.blobs.length - rest.length), draft.header, none⟩
  | (_, draft, rest, .ok ()) =>
    ⟨m.blobs.take (m.blobs.length - rest.length), draft.header,
      if draft.blobCount = 0 then none else serializePackfile P keys id draft⟩

/-- The loop of `write_packfiles`, given the I/O of its iterations; `none` if there are more of
them than `fuel` allows. -/
def writePackfiles (P : Primitives) (keys : KeyManager) : (fuel : ℕ) → Manager → Disk →
    (ℕ → PackfileIo) → Bool → Option (List Iteration × Manager × Disk × LoopEnd)
  | 0, _, _, _, _ => none
  | fuel + 1, m, disk, ios, bufferLimitExceeded =>
    if m.blobs = [] then some ([], m, disk, .emptied bufferLimitExceeded)
    else
      let iteration := m.iteration P keys (ios 0).id
      match m.writePackfile P keys disk (ios 0) with
      | none => some ([iteration], m, disk, .panicked)
      | some (m, disk, .error e) => some ([iteration], m, disk, .failed e)
      | some (m, disk, .ok e) =>
        (writePackfiles P keys fuel m disk (fun n => ios (n + 1)) (bufferLimitExceeded || e)).map
          fun (iterations, rest) => (iteration :: iterations, rest)

end Manager

/-- The packfile has no more entries than it may have, does not exceed the size that is asserted,
and is not too large for `get_blob`. -/
def Iteration.Fits (P : Primitives) (keys : KeyManager) (it : Iteration) : Prop :=
  it.header.length ≤ packfileMaxBlobs ∧ ∀ buffer, it.buffer = some buffer →
    buffer.length ≤ packfileMaxSize ∧
      ∀ id hash, readBlob P keys id buffer hash ≠ .error .packfileTooLarge

section

variable {P : Primitives} {keys : KeyManager}

/-! ## 2. One iteration -/

/-- `get_blob` refuses a packfile as too large only if it is. -/
theorem readBlob_ne_packfileTooLarge {id : PackfileId} {packfile : Bytes} {hash : BlobHash}
    (h : packfile.length ≤ packfileMaxSize) :
    readBlob P keys id packfile hash ≠ .error .packfileTooLarge := by
  have hentry : ∀ data entry, readEntry P keys data entry ≠ .error .packfileTooLarge := by
    intro data entry
    unfold readEntry
    repeat' split
    all_goals simp
  rw [readBlob, if_neg (not_lt.mpr h)]
  simp only
  repeat' split
  all_goals first | exact hentry _ _ | simp

theorem finalizePackfile_lastFileNum {id : PackfileId} {io : ℕ → FileWrite}
    {hashes : List BlobHash} {ix ix' : BlobIndex} {folder folder' : Folder}
    {r : Except PackfileError Unit}
    (h : finalizePackfile P keys id io ix folder hashes = some (ix', folder', r)) :
    ix'.lastFileNum ≤ ix.lastFileNum + hashes.length := by
  induction hashes generalizing ix folder with
  | nil =>
    simp only [finalizePackfile, Option.some.injEq, Prod.mk.injEq] at h
    rw [h.1, List.length_nil, Nat.add_zero]
  | cons hash hashes ih =>
    rw [finalizePackfile] at h
    rw [List.length_cons]
    split at h
    · cases h
    · rename_i hpush
      simp only [Option.some.injEq, Prod.mk.injEq] at h
      obtain ⟨rfl, -, -⟩ := h
      have := BlobIndex.push_lastFileNum hpush
      omega
    · rename_i hpush
      have := BlobIndex.push_lastFileNum hpush
      have := ih h
      omega

/-- What the iteration pops, and what it makes of that if the blobs are not too large. -/
theorem iteration_fits (hP : P.Lawful) (keys : KeyManager) {m : Manager} {ix : BlobIndex}
    {draft : PackfileDraft} {rest : List BlobEncrypted} (id : PackfileId)
    (hfill : fillDraft m.index .empty m.blobs = (ix, draft, rest, .ok ()))
    (hqueue : ∀ b ∈ m.blobs, b.data.length ≤ maxEncryptedBlob) :
    (m.iteration P keys id).popped ++ rest = m.blobs ∧ (m.iteration P keys id).Fits P keys := by
  obtain ⟨-, taken, hfilled⟩ := fillDraft_filled hfill
  have hlaid := hfilled.laid [] .empty
  have hbounds := fillDraft_bounds hfill (by decide) hqueue
  obtain ⟨popped, hpopped, -, -⟩ := fillDraft_popped hfill
  obtain ⟨buffer, hser, hsize⟩ := serializePackfile_fits hP keys hlaid id hbounds.1 hbounds.2
  have htake : m.blobs.take (m.blobs.length - rest.length) = popped := by
    rw [hpopped, List.length_append, Nat.add_sub_cancel]
    exact List.take_left
  simp only [Manager.iteration, hfill, Iteration.Fits, htake]
  refine ⟨hpopped.symm, ?_, fun buffer' hbuffer => ?_⟩
  · rw [hlaid.located.length_eq, ← hlaid.count]
    exact hbounds.1
  · rw [hser] at hbuffer
    split at hbuffer
    · cases hbuffer
    · obtain rfl := Option.some.inj hbuffer
      exact ⟨hsize, fun _ _ => readBlob_ne_packfileTooLarge hsize⟩

/-- An iteration makes the queue shorter. -/
theorem writePackfile_shortens {m m' : Manager} {disk disk' : Disk} {io : PackfileIo}
    {r : Except PackfileError Bool} (hne : m.blobs ≠ [])
    (h : m.writePackfile P keys disk io = some (m', disk', r)) :
    m'.blobs.length < m.blobs.length := by
  obtain ⟨ix, draft, rest, taken, hfill, -, hround⟩ := round_of_writePackfile h
  obtain ⟨popped, hsplit, -, hpos⟩ := fillDraft_popped hfill
  have := List.length_pos_of_ne_nil (hpos hne)
  rw [hround.blobs, hsplit, List.length_append]
  omega

/-- An iteration uses up no more numbers than it pops blobs. -/
theorem writePackfile_lastFileNum {m m' : Manager} {disk disk' : Disk} {io : PackfileIo}
    {r : Except PackfileError Bool} (h : m.writePackfile P keys disk io = some (m', disk', r)) :
    m'.index.lastFileNum + m'.blobs.length ≤ m.index.lastFileNum + m.blobs.length := by
  obtain ⟨ix, draft, rest, taken, hfill, hfilled, hround⟩ := round_of_writePackfile h
  have hlaid := hfilled.laid [] .empty
  have hlast : ix.lastFileNum = m.index.lastFileNum := by rw [hfilled.index]
  have hhashes : draft.blobs.length = draft.blobCount := by
    rw [hlaid.hashes, List.length_map, hlaid.count]
  obtain ⟨popped, hpopped, hcount, -⟩ := fillDraft_popped hfill
  have hlen : m.blobs.length = popped.length + rest.length := by rw [hpopped, List.length_append]
  simp only [PackfileDraft.empty] at hcount
  cases hround with
  | nothing | notEncrypted | notCreated | torn =>
    simp only
    omega
  | notRecorded buffer ix' folder e _ _ _ _ _ hfin
  | written buffer ix' folder _ _ _ _ _ hfin =>
    have hnums := finalizePackfile_lastFileNum hfin
    simp only
    omega

/-! ## 3. Every run of the loop -/

/-- The loop ends.  Its packfiles are within the limits, its iterations pop the queue in order and
one blob once, and it does not panic as long as the index has numbers for its files. -/
theorem writePackfiles_spec (hP : P.Lawful) (fuel : ℕ) (m : Manager) (disk : Disk)
    (ios : ℕ → PackfileIo) (exceeded : Bool)
    (hqueue : ∀ b ∈ m.blobs, b.data.length ≤ maxEncryptedBlob) (hfuel : m.blobs.length < fuel) :
    ∃ its m' disk' r, m.writePackfiles P keys fuel disk ios exceeded = some (its, m', disk', r) ∧
      (∀ it ∈ its, it.Fits P keys) ∧
      (r ≠ .panicked → its.flatMap Iteration.popped ++ m'.blobs = m.blobs) ∧
      (∀ e, r = .emptied e → m'.blobs = []) ∧
      (r = .panicked → u32Max < m.index.lastFileNum + m.blobs.length) := by
  induction fuel generalizing m disk ios exceeded with
  | zero => exact absurd hfuel (Nat.not_lt_zero _)
  | succ fuel ih =>
    rw [Manager.writePackfiles]
    split
    · rename_i hempty
      exact ⟨[], m, disk, _, rfl, by simp, fun _ => rfl, fun _ _ => hempty, by simp⟩
    · rename_i hne
      simp only
      split
      · -- only the index panics
        rename_i hnone
        obtain ⟨ix, draft, rest, r, hfill⟩ :
            ∃ ix draft rest r, fillDraft m.index .empty m.blobs = (ix, draft, rest, r) :=
          ⟨_, _, _, _, rfl⟩
        obtain ⟨rfl, -⟩ := fillDraft_filled hfill
        refine ⟨_, _, _, _, rfl, ?_, by simp, by simp, fun _ => ?_⟩
        · exact List.forall_mem_singleton.mpr (iteration_fits hP keys _ hfill hqueue).2
        · by_contra hnum
          obtain ⟨x, hx⟩ : ∃ x, m.writePackfile P keys disk (ios 0) = some x :=
            writePackfile_isSome hP hqueue (by omega)
          cases hnone.symm.trans hx
      · rename_i m' disk' e hwrite
        obtain ⟨ix, draft, rest, taken, hfill, -, hround⟩ := round_of_writePackfile hwrite
        obtain ⟨hpopped, hfits⟩ := iteration_fits hP keys (ios 0).id hfill hqueue
        refine ⟨_, _, _, _, rfl, List.forall_mem_singleton.mpr hfits, fun _ => ?_, by simp,
          by simp⟩
        rw [hround.blobs, List.flatMap_singleton, hpopped]
      · rename_i m' disk' e hwrite
        obtain ⟨ix, draft, rest, taken, hfill, hfilled, hround⟩ := round_of_writePackfile hwrite
        obtain ⟨hpopped, hfits⟩ := iteration_fits hP keys (ios 0).id hfill hqueue
        have hrest := hround.blobs
        have hshort := writePackfile_shortens hne hwrite
        obtain ⟨its, m'', disk'', r, hrun, hits, hall, hend, hpanic⟩ := ih m' disk'
          (fun n => ios (n + 1)) (exceeded || e)
          (fun b hb => hqueue b (hfilled.rest_subset (hrest ▸ hb))) (by omega)
        refine ⟨_, _, _, _, by rw [hrun]; rfl, List.forall_mem_cons.mpr ⟨hfits, hits⟩, fun hr => ?_,
          hend, fun hr => ?_⟩
        · rw [List.flatMap_cons, List.append_assoc, hall hr, hrest, hpopped]
        · exact (hpanic hr).trans_le (writePackfile_lastFileNum hwrite)

/-- Without an error of the I/O the loop goes on until the queue is empty. -/
theorem writePackfiles_emptied (hP : P.Lawful) {fuel : ℕ} {m m' : Manager} {disk disk' : Disk}
    {ios : ℕ → PackfileIo} {exceeded : Bool} {its : List Iteration} {r : LoopEnd}
    (hqueue : ∀ b ∈ m.blobs, b.data.length ≤ maxEncryptedBlob)
    (hios : ∀ n < m.blobs.length, (ios n).Succeeds disk)
    (hids : Set.InjOn (fun n => (ios n).id) (Set.Iio m.blobs.length))
    (hbuf : m.index.itemsBuf.length < maxFileEntries)
    (h : m.writePackfiles P keys fuel disk ios exceeded = some (its, m', disk', r))
    (hr : r ≠ .panicked) : ∃ e, r = .emptied e := by
  induction fuel generalizing m disk ios exceeded its with
  | zero => cases h
  | succ fuel ih =>
    rw [Manager.writePackfiles] at h
    split at h
    · simp only [Option.some.injEq, Prod.mk.injEq] at h
      exact ⟨_, h.2.2.2.symm⟩
    · rename_i hne
      have hpos : 0 < m.blobs.length := List.length_pos_of_ne_nil hne
      have hio := hios 0 hpos
      simp only at h
      split at h
      · simp only [Option.some.injEq, Prod.mk.injEq] at h
        exact absurd h.2.2.2.symm hr
      · rename_i hwrite
        obtain ⟨⟨e, he⟩, -⟩ := writePackfile_ok hP hqueue hio.fresh hio.file hio.flush hbuf hwrite
        cases he
      · rename_i m₁ disk₁ e hwrite
        obtain ⟨-, hbuf'⟩ := writePackfile_ok hP hqueue hio.fresh hio.file hio.flush hbuf hwrite
        obtain ⟨hsub, hput⟩ := writePackfile_put hP hqueue hwrite
        have hshort := writePackfile_shortens hne hwrite
        obtain ⟨⟨its', m₂, disk₂, r'⟩, hrun, heq⟩ := Option.map_eq_some_iff.mp h
        simp only [Prod.mk.injEq] at heq
        obtain ⟨-, rfl, rfl, rfl⟩ := heq
        refine ih (fun b hb => hqueue b (hsub hb)) (fun n hn => ?_) (fun a ha b hb hab => ?_) hbuf'
          hrun
        · -- the ids that are still to come are not taken
          have hn' : n + 1 < m.blobs.length := by omega
          obtain ⟨hfresh, hfile, hflush⟩ := hios (n + 1) hn'
          refine ⟨?_, hfile, hflush⟩
          have hne : (ios (n + 1)).id ≠ (ios 0).id := fun heq => by cases hids hn' hpos heq
          obtain ⟨hkeep, -⟩ | ⟨-, content, -, hput⟩ := hput
          · rw [hkeep]
            exact hfresh
          · rw [hput]
            simp only [Disk.put, Function.update_of_ne hne]
            exact hfresh
        · rw [Set.mem_Iio] at ha hb
          exact Nat.succ_injective (hids (show a + 1 < _ by omega) (show b + 1 < _ by omega) hab)

/-- The state of the call when the loop has ended. -/
def LoopEnd.pc : LoopEnd → AddPc
  | .emptied e => .writing e
  | .failed e => .returned (.error e)
  | .panicked => .killed

/-- The iterations of the loop are steps of the call that holds the mutexes. -/
theorem run_of_writePackfiles {fuel : ℕ} {w : World} {s : Session} {t : ℕ} {c : AddCall}
    {exceeded : Bool} {ios : ℕ → PackfileIo} {its : List Iteration} {m : Manager} {disk : Disk}
    {r : LoopEnd} (hs : w.session = some s) (hc : w.calls[t]? = some c)
    (hpc : c.pc = .writing exceeded) (hr : r ≠ .panicked)
    (h : s.manager.writePackfiles P keys fuel w.disk ios exceeded = some (its, m, disk, r)) :
    run (managerStep P keys) w ((List.range its.length).map fun n => .write t (ios n))
      = some (({ w with disk := disk }.setManager s m).setPc t c r.pc) := by
  induction fuel generalizing w s c exceeded ios its with
  | zero => cases h
  | succ fuel ih =>
    obtain ⟨hlt, hget⟩ := List.getElem?_eq_some_iff.mp hc
    rw [Manager.writePackfiles] at h
    split at h
    · simp only [Option.some.injEq, Prod.mk.injEq] at h
      obtain ⟨rfl, rfl, rfl, rfl⟩ := h
      have hcall : { c with pc := LoopEnd.pc (.emptied exceeded) } = w.calls[t] := by
        rw [hget, LoopEnd.pc, ← hpc]
      simp only [List.length_nil, List.range_zero, List.map_nil, run_nil, World.setPc,
        World.setManager, hcall, List.set_getElem_self, ← hs]
    · rename_i hne
      simp only at h
      split at h
      · simp only [Option.some.injEq, Prod.mk.injEq] at h
        exact absurd h.2.2.2.symm hr
      · rename_i m₁ disk₁ e hwrite
        simp only [Option.some.injEq, Prod.mk.injEq] at h
        obtain ⟨rfl, rfl, rfl, rfl⟩ := h
        simp [run, managerStep, World.inCall, hs, hc, hpc, hne, hwrite, LoopEnd.pc]
      · rename_i m₁ disk₁ e hwrite
        obtain ⟨⟨its', m₂, disk₂, r'⟩, hrun, heq⟩ := Option.map_eq_some_iff.mp h
        simp only [Prod.mk.injEq] at heq
        obtain ⟨rfl, rfl, rfl, rfl⟩ := heq
        have hstep : managerStep P keys w (.write t (ios 0)) = some (({ w with disk := disk₁
            }.setManager s m₁).setPc t c (.writing (exceeded || e))) := by
          simp [managerStep, World.inCall, hs, hc, hpc, hne, hwrite]
        have hrest := ih (w := ({ w with disk := disk₁ }.setManager s m₁).setPc t c
          (.writing (exceeded || e))) rfl (List.getElem?_set_self hlt) rfl hrun
        rw [List.length_cons, List.range_succ_eq_map, List.map_cons, List.map_map,
          run_cons_of_step _ hstep]
        refine hrest.trans ?_
        simp only [World.setPc, World.setManager, List.set_set]

/-! ## 4. The folder -/

/-- No packfile in the folder exceeds the limit. -/
def World.WithinLimit (w : World) : Prop :=
  ∀ id content, w.disk.packfiles id = some content → content.length ≤ packfileMaxSize

theorem withinLimit_put {disk : Disk} {id : PackfileId} {content : Bytes}
    (h : ∀ id content, disk.packfiles id = some content → content.length ≤ packfileMaxSize)
    (hlen : content.length ≤ packfileMaxSize) :
    ∀ id' content', (disk.put id content).packfiles id' = some content' →
      content'.length ≤ packfileMaxSize := by
  intro id' content' hcontent
  by_cases hid : id' = id
  · subst hid
    simp only [Disk.put, Function.update_self, Option.some.injEq] at hcontent
    exact hcontent ▸ hlen
  · simp only [Disk.put, Function.update_of_ne hid] at hcontent
    exact h id' content' hcontent

/-- A round keeps the folder within the limit, also when it writes a part of its packfile. -/
theorem withinLimit_writePackfile {m m' : Manager} {disk disk' : Disk} {io : PackfileIo}
    {r : Except PackfileError Bool}
    (h : ∀ id content, disk.packfiles id = some content → content.length ≤ packfileMaxSize)
    (hwrite : m.writePackfile P keys disk io = some (m', disk', r)) :
    ∀ id content, disk'.packfiles id = some content → content.length ≤ packfileMaxSize := by
  obtain ⟨ix, draft, rest, taken, -, -, hround⟩ := round_of_writePackfile hwrite
  cases hround with
  | nothing | notEncrypted | notCreated => exact h
  | torn buffer n _ _ hlen =>
    exact withinLimit_put h ((List.length_take_le' _ _).trans hlen)
  | notRecorded buffer ix' folder e _ _ hlen | written buffer ix' folder _ _ hlen =>
    exact withinLimit_put h hlen

theorem withinLimit_step {w w' : World} {a : ManagerAction} (h : w.WithinLimit)
    (hstep : managerStep P keys w a = some w') : w'.WithinLimit := by
  cases stepped_of_managerStep hstep with
  | wrote s t c exceeded io m disk r pc hs hc hpc hwrite hr =>
    exact withinLimit_writePackfile h hwrite
  | flushWrote s io m disk e hs hflush hwrite => exact withinLimit_writePackfile h hwrite
  | flushFailed s io m disk e hs hflush hwrite => exact withinLimit_writePackfile h hwrite
  | opened | notOpened | added | moved | enqueued | flushes | flushedIndex | killed => exact h

/-- `get_blob` refuses no packfile of such a folder as too large. -/
theorem World.WithinLimit.getBlob {w : World} (h : w.WithinLimit) (ix : BlobIndex)
    (hash : BlobHash) :
    Manager.getBlob P keys ix w.disk hash ≠ .error .packfileTooLarge := by
  unfold Manager.getBlob
  split
  · simp
  · split
    · simp
    · rename_i id _ _ packfile hfile
      have hread : readBlob P keys id packfile hash ≠ .error .packfileTooLarge :=
        readBlob_ne_packfileTooLarge (h id packfile hfile)
      cases hblob : readBlob P keys id packfile hash with
      | ok blob => simp [Except.map]
      | error e =>
        rw [hblob] at hread
        simpa [Except.map] using hread

/-- Whatever has been queued by calls of `add_blob`: every iteration of `write_packfiles` makes a
packfile within its limits, however its I/O ends, so neither the assertion fails nor `get_blob`
refuses the file.  The loop ends, having popped each blob of the queue once; what ends it earlier
is an error of the I/O, or an index that has used up its numbers. -/
theorem size_assertion_unreachable (hP : P.Lawful) {w : World}
    (h : Reach (managerStep P keys) (fun _ _ => True) .start w) :
    (∀ s, w.session = some s → ∀ fuel ios exceeded, s.manager.blobs.length < fuel →
      ∃ its m disk r, s.manager.writePackfiles P keys fuel w.disk ios exceeded
          = some (its, m, disk, r) ∧
        (∀ it ∈ its, it.Fits P keys) ∧
        (r ≠ .panicked → its.flatMap Iteration.popped ++ m.blobs = s.manager.blobs) ∧
        (∀ e, r = .emptied e → m.blobs = []) ∧
        (r = .panicked → u32Max < s.manager.index.lastFileNum + s.manager.blobs.length) ∧
        ((∀ n < s.manager.blobs.length, (ios n).Succeeds w.disk) →
          Set.InjOn (fun n => (ios n).id) (Set.Iio s.manager.blobs.length) →
          s.manager.index.itemsBuf.length < maxFileEntries → r ≠ .panicked →
            ∃ e, r = .emptied e)) ∧
      ∀ ix hash, Manager.getBlob P keys ix w.disk hash ≠ .error .packfileTooLarge := by
  have hsized : Sized w := h.invariant sized_start fun _ _ _ hs _ hst => sized_step hP hs hst
  have hlimit : w.WithinLimit := h.invariant (by simp [World.WithinLimit, World.start, Disk.empty])
    fun _ _ _ hs _ hst => withinLimit_step hs hst
  refine ⟨fun s hs fuel ios exceeded hfuel => ?_, fun ix hash => hlimit.getBlob ix hash⟩
  have hqueue := hsized.queue s hs
  obtain ⟨its, m, disk, r, hrun, hfits, hpopped, hempty, hpanic⟩ :=
    writePackfiles_spec hP fuel s.manager w.disk ios exceeded hqueue hfuel
  exact ⟨its, m, disk, r, hrun, hfits, hpopped, hempty, hpanic, fun hios hids hbuf hr =>
    writePackfiles_emptied hP hqueue hios hids hbuf hrun hr⟩

/-- A queue with a chunk, a tree and the chunk again: the loop ends with all three popped. -/
theorem size_assertion_unreachable_three : ∃ (w : World) (s : Session) (its : List Iteration)
    (m : Manager) (disk : Disk) (e : Bool), w.session = some s ∧ s.manager.blobs.length = 3 ∧
    s.manager.writePackfiles .transparent sampleKeys 4 w.disk
      (fun n => ⟨.fill (Fin.ofNat 256 n), .ok, fun _ => .ok⟩) false
        = some (its, m, disk, .emptied e) ∧
    (∀ it ∈ its, it.Fits .transparent sampleKeys) ∧
    its.flatMap Iteration.popped = s.manager.blobs := by
  obtain ⟨w, hw, s, hs, hlen, hbuf, hnum, hdisk⟩ :
      ∃ w, run (managerStep .transparent sampleKeys) .start [.openManager [] [] 0,
        .addBlob sampleBlob, .addBlob sampleTreeBlob, .addBlob sampleBlob,
        .check 0 (some (.fill 7)), .check 1 (some (.fill 8)), .check 2 (some (.fill 9)),
        .enqueue 2, .enqueue 0, .enqueue 1] = some w ∧
      ∃ s, w.session = some s ∧ s.manager.blobs.length = 3 ∧
        s.manager.index.itemsBuf.length = 0 ∧ s.manager.index.lastFileNum = 0 ∧
        ∀ id, w.disk.packfiles id = none :=
    ⟨_, rfl, _, rfl, rfl, rfl, rfl, fun _ => rfl⟩
  obtain ⟨its, m, disk, r, hrun, hfits, hpopped, hempty, hpanic, hend⟩ :=
    (size_assertion_unreachable Primitives.transparent_lawful (reach_of_run_true hw)).1 s hs 4
      (fun n => ⟨.fill (Fin.ofNat 256 n), .ok, fun _ => .ok⟩) false (by omega)
  have hr : r ≠ .panicked := by
    intro hr
    have := hpanic hr
    rw [hnum, hlen] at this
    exact absurd this (by decide)
  have hids : Set.InjOn (fun n : ℕ => (FixedBytes.fill (Fin.ofNat 256 n) : PackfileId))
      (Set.Iio s.manager.blobs.length) := by
    have hpairs : ∀ a < 3, ∀ b < 3, (FixedBytes.fill (Fin.ofNat 256 a) : PackfileId)
        = FixedBytes.fill (Fin.ofNat 256 b) → a = b := by decide
    intro a ha b hb heq
    rw [hlen, Set.mem_Iio] at ha hb
    exact hpairs a ha b hb heq
  obtain ⟨e, rfl⟩ := hend (fun _ _ => ⟨hdisk _, rfl, fun _ => rfl⟩) hids (by rw [hbuf]; decide) hr
  have hall := hpopped hr
  rw [hempty e rfl, List.append_nil] at hall
  exact ⟨w, s, its, m, disk, e, hs, hlen, hrun, hfits, hall⟩

end

end Backuwup.Client
