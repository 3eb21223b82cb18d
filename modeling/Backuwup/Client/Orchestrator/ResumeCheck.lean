/-
# The check before `resume` (`send.rs`)

After a pass over the packfiles, `send` subtracts what is still to be sent from the size of the
local buffer, and resumes a paused backup if more than the threshold is free.  The numbers are
unsigned.  `available_packfile_bytes` takes care of its own difference, and the top of the loop
expects more than the buffer holds; the check after the pass does not.  Nothing stops the tasks
that add blobs during the pass.

What they can report meanwhile is limited by the packer itself: over the limit `add_blob` returns
an error in place of the total, so the largest total that is stored is that of the packfile that
has passed the limit, as long as no call reports a total without having written
(`Packfile/Totals.lean`).  `resumes_right`: if every pass has sent, by its end, what that packfile
lies over the limit, the difference is one.  In `resume_underflows` a pass waits for the
acknowledgement of an empty packfile until the packer has passed the limit.
-/
import Backuwup.Client.Orchestrator.LocalBuffer
import Backuwup.Client.Packfile.Totals

namespace Backuwup.Client.Buffering

open Transition

/-! ## 1. The property and its condition -/

/-- What is available is a part of the buffer, and the backup is resumed only if the rest is more
than the threshold. -/
def ResumesRight (s : State) : Prop :=
  s.sender.pc = .sent →
    ∃ free, free + s.availablePackfileBytes = maxPackfileLocalBufferSize ∧
      ∀ s', sendStep s .resumeCheck = some s' → s'.sender.pc = .resuming →
        packfileLocalBufferResumeThreshold < free

/-- The total that the task is about to store. -/
def State.reported (s : State) (t : ℕ) : Option ℕ :=
  match s.callers[t]? with
  | some (.adding i _) =>
    match (s.world.calls[i]?).map AddCall.pc with
    | some (.returned (.ok written)) => written
    | _ => none
  | _ => none

/-- A total of this size is no trouble: it is no more over the limit than the packfile that has
passed it, or than the bytes that have been sent. -/
def State.most (s : State) : ℕ :=
  maxPackfileLocalBufferSize + max s.excess s.packfileBytesSent

/-- By the end of a pass, as much has been sent as the packfile that has passed the limit lies over
it, and so when a total is stored between the end and the check.  A call that gets the mutexes
finds a new blob in the queue, or the packer's total is no trouble. -/
def SendsEnough (s : State) : Action → Prop
  | .send .listed => s.excess ≤ s.packfileBytesSent
  | .returned _ => s.sender.pc = .sent → s.excess ≤ s.packfileBytesSent
  | .call _ .lock => ∀ x, s.world.session = some x →
    x.manager.packfilesSize ≤ s.most ∨ x.manager.HasNew
  | _ => True

/-! ## 2. Runs -/

section

variable {P : Primitives} {keys : KeyManager} {s s' : State} {a : Action} {m : ManagerAction}
  {w : World}

/-- The check itself compares with the threshold, so it is right as long as there is a
difference. -/
theorem resumesRight_iff : ResumesRight s ↔
    (s.sender.pc = .sent →
      s.packfileBytesWritten ≤ s.packfileBytesSent + maxPackfileLocalBufferSize) := by
  refine forall_congr' fun hpc => ?_
  have havailable : s.availablePackfileBytes = s.packfileBytesWritten - s.packfileBytesSent := rfl
  constructor
  · rintro ⟨free, hfree, -⟩
    omega
  · intro hle
    refine ⟨maxPackfileLocalBufferSize - s.availablePackfileBytes, by omega, ?_⟩
    intro s' hst hresuming
    cases sends_of_sendStep hst with
    | resumes p _ hthreshold => exact hthreshold
    | underflows | goesOn => cases hresuming

/-- Only the end of a pass leads to the check. -/
theorem sent_of_sendStep {e : SendEvent} (hst : sendStep s e = some s')
    (hpc : s'.sender.pc = .sent) : e = .listed := by
  cases sends_of_sendStep hst with
  | listed => rfl
  | acked => cases hpc
  | rests | finishes =>
    simp only [Sender.rest] at hpc
    split at hpc <;> cases hpc
  | resumed r p =>
    simp only [State.setSender] at hpc
    split at hpc <;> cases hpc
  | pauses | checks | subscribes | loads | begins | unconnected | stats | keeps | fails
    | underflows | resumes | goesOn | indexed | indexFails => cases hpc

/-- `send` and the counters are as before. -/
structure SameCounts (s s' : State) : Prop where
  sender : s'.sender = s.sender
  sent : s'.packfileBytesSent = s.packfileBytesSent
  written : s'.packfileBytesWritten = s.packfileBytesWritten
  excess : s.excess ≤ s'.excess

theorem SameCounts.most_le (h : SameCounts s s') : s.most ≤ s'.most := by
  have hexcess := h.excess
  simp only [State.most, h.sent]
  omega

theorem ResumesRight.of_counts (h : ResumesRight s) (hsame : SameCounts s s') :
    ResumesRight s' := by
  rw [resumesRight_iff] at h ⊢
  rw [hsame.sender, hsame.written, hsame.sent]
  exact h

/-- What has been stored, and what calls will return, is no trouble, and the checks are right. -/
structure Troublefree (s : State) : Prop where
  locked : Locked s.world
  reporting : Reporting s.world s.most
  written : s.packfileBytesWritten ≤ s.most
  right : ResumesRight s

theorem troublefree_start {k left : ℕ} {disk : Disk} {ix : BlobIndex} {sized : Bool} :
    Troublefree (start k disk ix left sized) where
  locked := ⟨by simp [start], by simp [start]⟩
  reporting := ⟨by simp [start], by simp [start]⟩
  written := Nat.zero_le _
  right hpc := by cases hpc

/-- Neither the manager nor a counter has moved. -/
theorem Troublefree.of_eq (h : Troublefree s) (hworld : s'.world = s.world)
    (hsame : SameCounts s s') : Troublefree s' where
  locked := by
    rw [hworld]
    exact h.locked
  reporting := by
    rw [hworld]
    exact h.reporting.mono hsame.most_le
  written := by
    rw [hsame.written]
    exact h.written.trans hsame.most_le
  right := h.right.of_counts hsame

/-- A step of the manager, after which no counter of the packer is over what it may be. -/
theorem Troublefree.managed (h : Troublefree s) (hsame : SameCounts s s')
    (ha : (∀ names files size, m ≠ .openManager names files size) ∧ m ≠ .kill)
    (hlock : LocksForNew s.most s.world m) (hw : managerStep P keys s.world m = some w)
    (hcalls : s'.world.calls = w.calls) (hsession : s'.world.session = w.session)
    (hcounted : ∀ x y, s.world.session = some x → w.session = some y →
      x.manager.packfilesSize ≤ maxPackfileLocalBufferSize →
      y.manager.packfilesSize ≤ s'.most) : Troublefree s' := by
  have hlocked := locked_step h.locked hw
  have hreporting := reporting_step h.reporting h.locked hsame.most_le ha hlock hcounted hw
  refine ⟨⟨?_, ?_⟩, ⟨?_, ?_⟩, ?_, h.right.of_counts hsame⟩
  · rw [hcalls]
    exact hlocked.single
  · rw [hcalls, hsession]
    exact hlocked.flush
  · rw [hcalls]
    exact hreporting.returned
  · rw [hcalls, hsession]
    exact hreporting.writing
  · rw [hsame.written]
    exact h.written.trans hsame.most_le

/-- A step that writes no packfile leaves the packer's total alone. -/
theorem total_of_managerStep
    (ha : (∀ names files size, m ≠ .openManager names files size) ∧ (∀ t io, m ≠ .write t io) ∧
      ∀ io, m ≠ .flushWrite io) (hw : managerStep P keys s.world m = some w) {x y : Session}
    (hx : s.world.session = some x) (hy : w.session = some y) :
    y.manager.packfilesSize = x.manager.packfilesSize := by
  cases stepped_of_managerStep hw with
  | opened | notOpened => exact absurd rfl (ha.1 _ _ _)
  | wrote => exact absurd rfl (ha.2.1 _ _)
  | flushWrote | flushFailed => exact absurd rfl (ha.2.2 _)
  | added | moved =>
    obtain rfl := Option.some.inj (hx.symm.trans hy)
    rfl
  | enqueued x' t call blob hx' | flushes x' hx' =>
    obtain rfl := Option.some.inj (hx.symm.trans hx')
    obtain rfl := Option.some.inj hy
    rfl
  | flushedIndex | killed => cases hy

theorem Troublefree.unwritten (h : Troublefree s) (hsame : SameCounts s s')
    (ha : (∀ names files size, m ≠ .openManager names files size) ∧ (∀ t io, m ≠ .write t io) ∧
      ∀ io, m ≠ .flushWrite io) (hkill : m ≠ .kill) (hlock : LocksForNew s.most s.world m)
    (hw : managerStep P keys s.world m = some w) (hworld : s'.world = w) : Troublefree s' := by
  refine h.managed hsame ⟨ha.1, hkill⟩ hlock hw (congrArg World.calls hworld)
    (congrArg World.session hworld) fun x y hx hy hle => ?_
  rw [total_of_managerStep ha hw hx hy]
  exact hle.trans (Nat.le_add_right _ _)

/-- A round: the packfile that passes the limit is the one that `excess` is about. -/
theorem Troublefree.wrote (h : Troublefree s) {id : PackfileId} {t : ℕ}
    (ha : (∀ names files size, m ≠ .openManager names files size) ∧ m ≠ .kill)
    (hlock : LocksForNew s.most s.world m) (hw : managerStep P keys s.world m = some w) :
    Troublefree (s.record t w id) := by
  have hexcess : s.excess ≤ s.excessAfter w := by
    unfold State.excessAfter
    split
    · split
      · exact le_max_left _ _
      · exact le_refl _
    · exact le_refl _
  have hsame : SameCounts s (s.record t w id) :=
    ⟨record_sender, record_sent, record_written, by rw [record_excess]; exact hexcess⟩
  refine h.managed hsame ha hlock hw record_calls record_session fun x y hx hy hle => ?_
  have hafter : s.excessAfter w
      = max s.excess (y.manager.packfilesSize - maxPackfileLocalBufferSize) := by
    rw [State.excessAfter, hx, hy]
    exact if_pos hle
  rw [State.most, record_excess, hafter]
  omega

theorem Troublefree.setCaller (h : Troublefree s) (t : ℕ) (c : Caller) :
    Troublefree (s.setCaller t c) :=
  h.of_eq rfl ⟨rfl, rfl, rfl, le_refl _⟩

theorem Troublefree.grow (h : Troublefree s) {id : PackfileId} {n : ℕ}
    (hst : s.grow w id n = some s') : Troublefree s' := by
  obtain ⟨-, rfl⟩ := State.grow_eq_some hst
  exact h.of_eq rfl ⟨rfl, rfl, rfl, le_refl _⟩

/-- A total is stored that is no trouble, and between a pass and the check only after the pass has
sent enough. -/
theorem Troublefree.store (h : Troublefree s) {n : ℕ} (hn : n ≤ s.most)
    (hsent : s.sender.pc = .sent → s.excess ≤ s.packfileBytesSent) :
    Troublefree { s with packfileBytesWritten := n } := by
  refine { h with written := hn, right := ?_ }
  rw [resumesRight_iff]
  intro hpc
  change n ≤ s.packfileBytesSent + maxPackfileLocalBufferSize
  rw [State.most, max_eq_right (hsent hpc)] at hn
  omega

theorem Troublefree.send (h : Troublefree s) {e : SendEvent} (ha : SendsEnough s (.send e))
    (hst : sendStep s e = some s') : Troublefree s' := by
  have hkeeps := sendKeeps_of_sendStep hst
  have hmost : s.most ≤ s'.most := by
    have hsent := hkeeps.sent
    simp only [State.most, hkeeps.excess]
    omega
  have hreporting := h.reporting.mono hmost
  refine ⟨⟨?_, ?_⟩, ⟨?_, ?_⟩, ?_, ?_⟩
  · rw [hkeeps.calls]
    exact h.locked.single
  · rw [hkeeps.calls, hkeeps.session]
    exact h.locked.flush
  · rw [hkeeps.calls]
    exact hreporting.returned
  · rw [hkeeps.calls, hkeeps.session]
    exact hreporting.writing
  · rw [hkeeps.written]
    exact h.written.trans hmost
  · -- the pass has sent enough
    rw [resumesRight_iff]
    intro hpc
    obtain rfl := sent_of_sendStep hst hpc
    have hexcess : s.excess ≤ s.packfileBytesSent := ha
    have hwritten := h.written
    have hsent := hkeeps.sent
    rw [State.most, max_eq_right hexcess] at hwritten
    rw [hkeeps.written]
    omega

theorem troublefree_step (h : Troublefree s) (ha : SendsEnough s a)
    (hst : step P keys s a = some s') : Troublefree s' := by
  cases moved_of_step hst with
  | adds t kind data w call ht hw hcalls =>
    refine Troublefree.setCaller ?_ _ _
    exact h.unwritten ⟨rfl, rfl, rfl, le_refl _⟩ ⟨by simp, by simp, by simp⟩ (by simp)
      (by trivial) hw rfl
  | calls t e i wrote w ht hw hne =>
    have hlock : LocksForNew s.most s.world (e.toAction i) := by
      cases e with
      | lock => exact ha
      | check | enqueue | trigger | write | unlock => trivial
    refine h.unwritten ⟨rfl, rfl, rfl, le_refl _⟩ ?_ ?_ hlock hw rfl
    · cases e with
      | write io => exact absurd rfl (hne io)
      | check | enqueue | trigger | lock | unlock =>
        exact ⟨by simp [CallEvent.toAction], by simp [CallEvent.toAction],
          by simp [CallEvent.toAction]⟩
    · cases e <;> simp [CallEvent.toAction]
  | writes t io i wrote w ht hw =>
    exact (h.wrote ⟨by simp, by simp⟩ (by trivial) hw).setCaller _ _
  | grows t id length i wrote w s' ht hw hgrow => exact h.grow hgrow
  | returnsOk t i wrote call written ht hcall hpc =>
    have hwritten : written.getD s.packfileBytesWritten ≤ s.most := by
      cases written with
      | none => exact h.written
      | some n => exact h.reporting.returned call (List.mem_of_getElem? hcall) n hpc
    exact (h.store hwritten ha).setCaller _ _
  | returnsError t i wrote call x ht => exact h.setCaller _ _
  | blocks t e p ht hp => exact h.of_eq rfl ⟨rfl, rfl, rfl, le_refl _⟩
  | flushes w hall hw =>
    exact h.unwritten ⟨rfl, rfl, rfl, le_refl _⟩ ⟨by simp, by simp, by simp⟩ (by simp)
      (by trivial) hw rfl
  | flushGrows id length w s' hw hgrow => exact h.grow hgrow
  | flushWrites io w hw => exact h.wrote ⟨by simp, by simp⟩ (by trivial) hw
  | flushIndexes io w hw =>
    exact h.unwritten ⟨rfl, rfl, rfl, le_refl _⟩ ⟨by simp, by simp, by simp⟩ (by simp)
      (by trivial) hw rfl
  | completes | learns => exact h.of_eq rfl ⟨rfl, rfl, rfl, le_refl _⟩
  | sends e s' hst => exact h.send ha hst

end

/-! ## 3. The packer while `send` waits -/

/-- The same backup at another place of `send`. -/
def State.withSender (s : State) (sender : Sender) (matched : ℕ) : State :=
  { s with sender := sender, storageRequestLastMatched := matched }

section

variable {P : Primitives} {keys : KeyManager} {s s' : State} {a : Action} {sender : Sender}
  {matched : ℕ}

theorem record_withSender {t : ℕ} {w : World} {id : PackfileId} :
    (s.withSender sender matched).record t w id = (s.record t w id).withSender sender matched := by
  cases hcreated : s.created w id with
  | none =>
    have hsame : (s.withSender sender matched).created w id = none := hcreated
    rw [record_of_none hcreated, record_of_none hsame]
    rfl
  | some n =>
    have hsame : (s.withSender sender matched).created w id = some n := hcreated
    cases hdeleted : s.half.any Half.deleted with
    | true =>
      rw [record_of_deleted hcreated hdeleted, record_of_deleted hsame hdeleted]
      rfl
    | false =>
      rw [record_of_some hcreated hdeleted, record_of_some hsame hdeleted]
      rfl

/-- The tasks that add blobs do not look at `send`. -/
theorem step_withSender (ha : OfTask s a) (hst : step P keys s a = some s') :
    step P keys (s.withSender sender matched) a = some (s'.withSender sender matched) := by
  cases a with
  | add t kind data =>
    simp only [step] at hst
    split at hst
    · rename_i ht
      obtain ⟨w, hw, rfl⟩ := Option.map_eq_some_iff.mp hst
      have ht' : (s.withSender sender matched).callers[t]? = some .idle := ht
      have hw' : managerStep P keys (s.withSender sender matched).world
          (.addBlob ⟨P.hash data, kind, data⟩) = some w := hw
      simp only [step, ht', hw', Option.map_some]
      rfl
    · cases hst
  | call t e =>
    simp only [step] at hst
    split at hst
    · rename_i i wrote ht
      obtain ⟨w, hw, hst⟩ := Option.bind_eq_some_iff.mp hst
      have ht' : (s.withSender sender matched).callers[t]? = some (.adding i wrote) := ht
      have hw' : managerStep P keys (s.withSender sender matched).world (e.toAction i) = some w :=
        hw
      simp only [step, ht', hw', Option.bind_some]
      cases e with
      | write io =>
        obtain ⟨hcontinues, rfl⟩ := Option.ite_some_none_eq_some.mp hst
        have hcontinues' : (s.withSender sender matched).continues w io.id = true := hcontinues
        simp only [hcontinues', if_true, record_withSender]
        rfl
      | check | enqueue | trigger | lock | unlock => exact Option.some.inj hst ▸ rfl
    · cases hst
  | grow => cases ha
  | returned t =>
    simp only [step] at hst
    split at hst
    · rename_i i wrote ht
      have ht' : (s.withSender sender matched).callers[t]? = some (.adding i wrote) := ht
      split at hst
      · rename_i written hpc
        obtain rfl := Option.some.inj hst
        have hpc' : ((s.withSender sender matched).world.calls[i]?).map AddCall.pc
            = some (.returned (.ok written)) := hpc
        simp only [step, ht', hpc']
        rfl
      · rename_i x hpc
        obtain rfl := Option.some.inj hst
        have hpc' : ((s.withSender sender matched).world.calls[i]?).map AddCall.pc
            = some (.returned (.error x)) := hpc
        simp only [step, ht', hpc']
        rfl
      · cases hst
    · cases hst
  | block t e =>
    simp only [step] at hst
    split at hst
    · rename_i ht
      obtain ⟨p, hp, rfl⟩ := Option.map_eq_some_iff.mp hst
      have ht' : (s.withSender sender matched).callers[t]? = some .blocking := ht
      have hp' : pauseStep (s.withSender sender matched).pause (e.toAction t) = some p := hp
      simp only [step, ht', hp', Option.map_some]
      rfl
    · cases hst
  | flush e => cases ha
  | complete => cases ha
  | matched time => cases ha
  | send e => cases ha

end

/-- A packfile that an earlier backup has created and not got to write. -/
def emptyId : PackfileId := ⟨1 :: List.replicate 11 0, rfl⟩

def emptyLeft : Disk := Disk.empty.put emptyId []

theorem emptyId_ne_chunkId (n : ℕ) : emptyId ≠ chunkId n := by
  intro heq
  have hbytes : emptyId.bytes = List.replicate 12 (chunkByte n) := congrArg FixedBytes.bytes heq
  have hfirst : chunkByte n = 1 := by simpa [emptyId] using (congrArg List.head? hbytes).symm
  rw [hfirst] at hbytes
  exact absurd hbytes (by decide)

/-- Until its total has passed the limit, the packer reports every packfile, and `send` need not
do anything meanwhile. -/
theorem packing_unsent {n : ℕ} (hn : n ≤ 34) : ∃ disk calls files writers,
    Ready n disk calls ∧
      (∀ i < n, ∃ content, disk.packfiles (chunkId i) = some content ∧
        content.length = chunkPackfileSize) ∧
      Reach (step .transparent sampleKeys) OfTask
        (start 1 emptyLeft ⟨[], [], [], 0, false⟩ 0 true)
        (packing disk calls [] n (n * chunkPackfileSize) 0 .idle files writers) := by
  induction n with
  | zero =>
    have hready : Ready 0 emptyLeft [] :=
      ⟨fun _ hcall => (by cases hcall), fun i _ _ =>
        Function.update_of_ne (emptyId_ne_chunkId i).symm _ _⟩
    exact ⟨emptyLeft, [], [], [], hready, fun i hi => absurd hi (Nat.not_lt_zero i), .refl⟩
  | succ n ih =>
    obtain ⟨disk, calls, files, writers, hready, hchunks, hreach⟩ := ih (by omega)
    obtain ⟨data, blob, h⟩ := exists_chunk n
    obtain ⟨content, calls', written', writers', hlen, hready', hwritten', hadded⟩ :=
      h.add (by omega) hready
    have hle : ¬ maxPackfileLocalBufferSize < n * chunkPackfileSize := by
      simp only [chunkPackfileSize, maxPackfileLocalBufferSize]
      omega
    rw [if_neg hle] at hwritten'
    subst hwritten'
    refine ⟨_, calls', _, writers', hready', fun i hi => ?_, hreach.trans hadded⟩
    by_cases hin : chunkId i = chunkId n
    · rw [hin]
      exact ⟨content, Function.update_self _ _ _, hlen⟩
    · have hlt : i < n := lt_of_le_of_ne (Nat.lt_succ_iff.mp hi) fun heq => hin (heq ▸ rfl)
      obtain ⟨old, hold, hlen⟩ := hchunks i hlt
      exact ⟨old, (Function.update_of_ne hin _ _).trans hold, hlen⟩

theorem OfTask.sendsEnough (h : OfTask s a) : SendsEnough s a := by
  cases a with
  | call t e =>
    cases e with
    | lock => exact fun x hx => Or.inr (h x hx)
    | check | enqueue | trigger | write | unlock => trivial
  | returned t => exact fun hsent => absurd hsent h
  | add | grow | block | flush | complete | matched => trivial
  | send => cases h

/-! ## 4. The check -/

/-- If every pass sends enough, resuming is decided on what is free of the buffer. -/
theorem resumes_right {P : Primitives} {keys : KeyManager} {s : State} {k left : ℕ} {disk : Disk}
    {ix : BlobIndex} {sized : Bool}
    (h : Reach (step P keys) SendsEnough (start k disk ix left sized) s) : ResumesRight s :=
  (h.invariant troublefree_start fun _ _ _ hs ha hst => troublefree_step hs ha hst).right

/-- The 34th packfile has taken the total over the limit; the pass sends the first packfile, which
is more than that. -/
theorem resumes_right_over : ∃ s, Reach (step .transparent sampleKeys) SendsEnough
    (start 1 emptyLeft ⟨[], [], [], 0, false⟩ 0 true) s ∧ s.sender.pc = .sent ∧
    maxPackfileLocalBufferSize < s.packfileBytesWritten ∧ s.pause.paused = true ∧
    ResumesRight s := by
  obtain ⟨disk, calls, files, writers, -, hchunks, hreach⟩ := packing_unsent (le_refl 34)
  obtain ⟨content, hdisk, hlen⟩ := hchunks 0 (by decide)
  obtain ⟨paused, hpaused⟩ : ∃ p : PauseState, p =
    { PauseState.start with paused := true, sender := .pausing }.push.setSender .idle := ⟨_, rfl⟩
  obtain ⟨s, hs⟩ : ∃ s, s = { packing disk calls [] 34 (34 * chunkPackfileSize) 0 .idle files
    writers with
      pause := paused
      sender := ⟨.sending (34 * chunkPackfileSize) 0, true, 0, 0, false⟩ } := ⟨_, rfl⟩
  have hpacked := hreach.mono fun _ _ ha => ha.sendsEnough
  have hbegun : Reach (step .transparent sampleKeys) SendsEnough
      (start 1 emptyLeft ⟨[], [], [], 0, false⟩ 0 true) s := by
    rw [hs, hpaused]
    exact (((hpacked.tail (.send .check) (by trivial) rfl).tail (.send .subscribe) (by trivial)
      rfl).tail (.send .load) (by trivial) rfl).tail (.send (.connect true)) (by trivial) rfl
  have hstat : step .transparent sampleKeys s (.send (.stat (chunkId 0) chunkPackfileSize))
      = some (s.setSender (.acking (34 * chunkPackfileSize) 0 (chunkId 0) chunkPackfileSize)) := by
    subst hs
    simp [step, sendStep, State.fileSize, State.setSender, packing, hdisk, hlen]
  have hacked : step .transparent sampleKeys
      (s.setSender (.acking (34 * chunkPackfileSize) 0 (chunkId 0) chunkPackfileSize))
      (.send (.acked true))
        = some ({ s with packfileBytesSent := chunkPackfileSize }.removeFile (chunkId 0)) := by
    subst hs
    simp [step, sendStep, State.setSender, packing]
  have henough : SendsEnough
      ({ s with packfileBytesSent := chunkPackfileSize }.removeFile (chunkId 0))
      (.send .listed) := by
    subst hs
    change chunkExcess 34 ≤ chunkPackfileSize
    decide
  have hlisted := ((hbegun.tail _ (by trivial) hstat).tail _ (by trivial) hacked).tail
    (.send .listed) henough (by subst hs; rfl)
  refine ⟨_, hlisted, rfl, ?_, ?_, resumes_right hlisted⟩
  · subst hs
    change maxPackfileLocalBufferSize < 34 * chunkPackfileSize
    decide
  · subst hs hpaused
    rfl

/-- While a pass waits for the acknowledgement of an empty packfile, more is written and reported
than the buffer holds. -/
theorem resume_underflows : ∃ s s', Reach (step .transparent sampleKeys) (fun _ _ => True)
    (start 1 emptyLeft ⟨[], [], [], 0, false⟩ 0 true) s ∧ s.sender.pc = .sent ∧
    maxPackfileLocalBufferSize < s.availablePackfileBytes ∧
    step .transparent sampleKeys s (.send .resumeCheck) = some s' ∧ s'.sender.pc = .ended ∧
    ¬ ResumesRight s := by
  obtain ⟨disk, calls, files, writers, -, -, hreach⟩ := packing_unsent (le_refl 34)
  obtain ⟨acking, hacking⟩ : ∃ x : Sender, x = ⟨.acking 0 1 emptyId 0, true, 0, 0, false⟩ :=
    ⟨_, rfl⟩
  have hbegin : run (step .transparent sampleKeys)
      (start 1 emptyLeft ⟨[], [], [], 0, false⟩ 0 true)
      [.matched 1, .send .check, .send .load, .send (.connect true), .send (.stat emptyId 0)]
        = some ((start 1 emptyLeft ⟨[], [], [], 0, false⟩ 0 true).withSender acking 1) := by
    rw [hacking]
    rfl
  obtain ⟨s, hs⟩ : ∃ s, s = (packing disk calls [] 34 (34 * chunkPackfileSize) 0 .idle files
    writers).withSender acking 1 := ⟨_, rfl⟩
  have hpacked : Reach (step .transparent sampleKeys) (fun _ _ => True)
      ((start 1 emptyLeft ⟨[], [], [], 0, false⟩ 0 true).withSender acking 1) s := by
    rw [hs]
    exact hreach.map (State.withSender · acking 1) id
      fun s a s' ha hst => ⟨trivial, step_withSender ha hst⟩
  have hacked : step .transparent sampleKeys s (.send (.acked true))
      = some ((s.setSender (.sending 0 1)).removeFile emptyId) := by
    subst hs hacking
    rfl
  obtain ⟨s', hs'⟩ : ∃ s', s' = { s.removeFile emptyId with
    sender := ⟨.sent, true, 0, 1, false⟩ } := ⟨_, rfl⟩
  have hlisted : step .transparent sampleKeys ((s.setSender (.sending 0 1)).removeFile emptyId)
      (.send .listed) = some s' := by
    subst hs hacking hs'
    rfl
  have hpc : s'.sender.pc = .sent := by rw [hs']
  have hover : maxPackfileLocalBufferSize < s'.availablePackfileBytes := by
    subst hs hs'
    change maxPackfileLocalBufferSize < 34 * chunkPackfileSize - 0
    decide
  have hcheck : step .transparent sampleKeys s' (.send .resumeCheck)
      = some (s'.setSender .ended) := by
    simp only [step, sendStep, hpc, if_pos hover]
  refine ⟨s', _, ?_, hpc, hover, hcheck, rfl, fun hright => ?_⟩
  · exact (((reach_of_run_true hbegin).trans hpacked).tail _ trivial hacked).tail _ trivial hlisted
  · obtain ⟨free, hfree, -⟩ := hright hpc
    omega

end Backuwup.Client.Buffering
