/-
# The size of the folder and what the manager reports of it (`pack.rs`)

A manager begins with the size of the packfiles in the folder and adds that of each packfile it
writes.  The total leaves `write_packfiles` in three ways: the call of `add_blob` returns it, it
returns `ExceededBufferLimit` instead, or `flush` drops it.  Here is what one step adds to the
folder and to the total, for writes whose I/O succeeds (`counts_step`): a step that creates a
packfile adds its size to both and leaves a call behind that is still to report the new total,
provided the packfile is within the limit and not the flush's.
-/
import Backuwup.Client.Packfile.Transportable
import Backuwup.Client.Packfile.RoundTrip
import Mathlib.Algebra.BigOperators.Group.Finset.Basic

namespace Backuwup.Client

/-! ## 1. The folder -/

/-- The packfiles in the folder take so many bytes. -/
def Disk.Occupies (disk : Disk) (size : ℕ) : Prop :=
  ∃ ids : Finset PackfileId, (∀ id, id ∈ ids ↔ disk.packfiles id ≠ none) ∧
    ∑ id ∈ ids, (disk.packfiles id).elim 0 List.length = size

namespace Disk.Occupies

variable {disk disk' : Disk} {size size' : ℕ} {id : PackfileId} {content : Bytes}

theorem empty : Disk.empty.Occupies 0 := ⟨∅, by simp [Disk.empty], rfl⟩

theorem unique (h : disk.Occupies size) (h' : disk.Occupies size') : size = size' := by
  obtain ⟨ids, hids, rfl⟩ := h
  obtain ⟨ids', hids', rfl⟩ := h'
  have hsame : ids = ids' := by
    ext id
    rw [hids, hids']
  rw [hsame]

theorem congr (h : disk.Occupies size) (heq : disk'.packfiles = disk.packfiles) :
    disk'.Occupies size := by
  rw [Disk.Occupies, heq]
  exact h

/-- A new packfile adds its length. -/
theorem put (h : disk.Occupies size) (hnone : disk.packfiles id = none) :
    (disk.put id content).Occupies (size + content.length) := by
  obtain ⟨ids, hids, rfl⟩ := h
  have hnot : id ∉ ids := fun hmem => (hids id).mp hmem hnone
  have hself : (disk.put id content).packfiles id = some content := Function.update_self _ _ _
  have hne : ∀ id', id' ≠ id → (disk.put id content).packfiles id' = disk.packfiles id' :=
    fun id' hid' => Function.update_of_ne hid' _ _
  refine ⟨insert id ids, fun id' => ?_, ?_⟩
  · by_cases hid' : id' = id
    · simp [hid', hself]
    · rw [Finset.mem_insert, hne id' hid', hids id']
      exact or_iff_right hid'
  · have hrest : ∑ id' ∈ ids, ((disk.put id content).packfiles id').elim 0 List.length
        = ∑ id' ∈ ids, (disk.packfiles id').elim 0 List.length := by
      refine Finset.sum_congr rfl fun id' hmem => ?_
      rw [hne id' fun heq => hnot (heq ▸ hmem)]
    rw [Finset.sum_insert hnot, hself, hrest]
    exact Nat.add_comm _ _

/-- A packfile that is deleted takes its length with it. -/
theorem remove (h : disk.Occupies size) (hsome : disk.packfiles id = some content) :
    ∃ rest, rest + content.length = size ∧ (disk.remove id).Occupies rest := by
  obtain ⟨ids, hids, rfl⟩ := h
  have hmem : id ∈ ids := (hids id).mpr (by rw [hsome]; exact Option.some_ne_none _)
  have hsum := Finset.sum_erase_add ids (fun id' => (disk.packfiles id').elim 0 List.length) hmem
  rw [hsome] at hsum
  have hne : ∀ id', id' ≠ id →
      Function.update disk.packfiles id none id' = disk.packfiles id' :=
    fun id' hid' => Function.update_of_ne hid' _ _
  refine ⟨_, hsum, ids.erase id, fun id' => ?_, Finset.sum_congr rfl fun id' hmem' => ?_⟩
  · change id' ∈ ids.erase id ↔ Function.update disk.packfiles id none id' ≠ none
    by_cases hid' : id' = id
    · simp [hid']
    · rw [Finset.mem_erase, hids id', hne id' hid']
      exact and_iff_right hid'
  · exact congrArg (fun x => x.elim 0 List.length) (hne id' (Finset.ne_of_mem_erase hmem'))

theorem le (h : disk.Occupies size) (hsome : disk.packfiles id = some content) :
    content.length ≤ size := by
  obtain ⟨rest, rfl, -⟩ := h.remove hsome
  exact Nat.le_add_left _ _

end Disk.Occupies

/-! ## 2. A round of `write_packfiles` -/

/-- The queue holds a blob that is not known. -/
def Manager.HasNew (m : Manager) : Prop :=
  ∃ blob ∈ m.blobs, m.index.isBlobDuplicate blob.hash = false

section

variable {P : Primitives} {keys : KeyManager} {m m' : Manager} {disk disk' : Disk}
  {io : PackfileIo} {r : Except PackfileError Bool}

/-- Blobs that are known are passed over. -/
theorem fillDraft_known {ix : BlobIndex} {draft : PackfileDraft} {blobs : List BlobEncrypted}
    (h : ∀ blob ∈ blobs, ix.isBlobDuplicate blob.hash = true) :
    fillDraft ix draft blobs = (ix, draft, [], .ok ()) := by
  induction blobs with
  | nil => rfl
  | cons blob blobs ih =>
    rw [fillDraft, if_pos (h blob List.mem_cons_self)]
    exact ih fun b hb => h b (List.mem_cons_of_mem _ hb)

/-- A round whose I/O succeeds writes a packfile and counts it, or has nothing new to write. -/
theorem writePackfile_counts (hP : P.Lawful)
    (hqueue : ∀ b ∈ m.blobs, b.data.length ≤ maxEncryptedBlob)
    (hbuf : m.index.itemsBuf.length < maxFileEntries) (hio : io.Succeeds disk)
    (h : m.writePackfile P keys disk io = some (m', disk', r)) :
    m'.index.itemsBuf.length < maxFileEntries ∧
    ((disk'.packfiles = disk.packfiles ∧ m'.packfilesSize = m.packfilesSize ∧ r = .ok false) ∨
      (m.HasNew ∧ ∃ content : Bytes, 0 < content.length ∧
        disk'.packfiles = (disk.put io.id content).packfiles ∧
        m'.packfilesSize = m.packfilesSize + content.length ∧
        r = .ok (decide (maxPackfileLocalBufferSize < m.packfilesSize)))) := by
  obtain ⟨ix, draft, rest, taken, hfill, hfilled, hround⟩ := round_of_writePackfile h
  have hix : ix.itemsBuf.length < maxFileEntries := by
    rw [hfilled.index]
    exact hbuf
  cases hround with
  | nothing => exact ⟨hix, Or.inl ⟨rfl, rfl, rfl⟩⟩
  | notEncrypted _ hnone =>
    have hbounds := fillDraft_bounds hfill (by decide) hqueue
    obtain ⟨buffer, hser, -⟩ :=
      serializePackfile_fits hP keys (hfilled.laid [] .empty) io.id hbounds.1 hbounds.2
    cases hnone.symm.trans hser
  | notCreated buffer _ _ _ hfail => exact absurd hfail (by simp [hio.fresh, hio.file])
  | torn buffer n _ _ _ _ hfails => cases hfails.symm.trans hio.file
  | notRecorded buffer ix' folder e _ _ _ _ _ hfin =>
    cases (finalizePackfile_ok hio.flush (hix.trans (by decide)) hfin).1
  | written buffer ix' folder hcount hser _ _ _ hfin =>
    have hnew : m.HasNew := by
      by_contra hnone
      have hknown : ∀ blob ∈ m.blobs, m.index.isBlobDuplicate blob.hash = true := by
        intro blob hblob
        by_contra hdup
        exact hnone ⟨blob, hblob, eq_false_of_ne_true hdup⟩
      obtain ⟨-, rfl, -⟩ := by simpa using (fillDraft_known hknown).symm.trans hfill
      exact hcount rfl
    have hpos : 0 < buffer.length := by
      obtain ⟨header, -, rfl⟩ := Option.map_eq_some_iff.mp hser
      simp only [List.length_append, leBytes_length]
      omega
    have hbuf' := (finalizePackfile_ok hio.flush (hix.trans (by decide)) hfin).2 hix
    exact ⟨hbuf', Or.inr ⟨hnew, buffer, hpos, rfl, rfl, rfl⟩⟩

end

/-! ## 3. A step of the manager -/

/-- The manager's total, which no call has returned more than and which it has not found over the
limit. -/
structure Counts (w : World) (total : ℕ) : Prop where
  counter : ∀ s, w.session = some s → s.manager.packfilesSize = total
  buffer : ∀ s, w.session = some s → s.manager.index.itemsBuf.length < maxFileEntries
  returned : ∀ c ∈ w.calls, ∀ n, c.pc = .returned (.ok (some n)) → n ≤ total
  within : ∀ c ∈ w.calls, c.pc ≠ .writing true

/-- The call returns the total, or will. -/
def AddCall.Reports (total : ℕ) (c : AddCall) : Prop :=
  c.pc = .writing false ∨ c.pc = .returned (.ok (some total))

/-- The I/O of a packfile succeeds. -/
def WritesSucceed (w : World) : ManagerAction → Prop
  | .write _ io | .flushWrite io => io.Succeeds w.disk
  | _ => True

/-- A new packfile is written only while the total is within the limit, and not by `flush`. -/
def WritesReported (w : World) : ManagerAction → Prop
  | .write _ _ => ∀ s, w.session = some s → s.manager.HasNew →
      s.manager.packfilesSize ≤ maxPackfileLocalBufferSize
  | .flushWrite _ => ∀ s, w.session = some s → ¬ s.manager.HasNew
  | _ => True

section

variable {P : Primitives} {keys : KeyManager} {w w' : World} {total : ℕ}

theorem Counts.setPc (h : Counts w total) {t : ℕ} {c : AddCall} {pc : AddPc}
    (hreturned : ∀ n, pc = .returned (.ok (some n)) → n ≤ total) (hwithin : pc ≠ .writing true) :
    Counts (w.setPc t c pc) total := by
  refine { h with returned := fun c' hc' n hn => ?_, within := fun c' hc' => ?_ }
  · rcases mem_setPc hc' with hc' | rfl
    · exact h.returned c' hc' n hn
    · exact hreturned n hn
  · rcases mem_setPc hc' with hc' | rfl
    · exact h.within c' hc'
    · exact hwithin

/-- The manager changes, the calls stay. -/
theorem Counts.setManager (h : Counts w total) {s : Session} {m : Manager} {disk : Disk}
    (more : ℕ) (hsize : m.packfilesSize = total + more)
    (hbuf : m.index.itemsBuf.length < maxFileEntries) :
    Counts ({ w with disk := disk }.setManager s m) (total + more) := by
  refine ⟨fun s' hs' => ?_, fun s' hs' => ?_, fun c hc n hn => ?_, h.within⟩
  · obtain rfl := Option.some.inj hs'
    exact hsize
  · obtain rfl := Option.some.inj hs'
    exact hbuf
  · exact (h.returned c hc n hn).trans (Nat.le_add_right _ _)

/-- A step that creates no packfile keeps the total, and the calls that report it. -/
structure Counted (w w' : World) (total : ℕ) : Prop where
  packfiles : w'.disk.packfiles = w.disk.packfiles
  counts : Counts w' total
  reports : ∀ (i : ℕ) (c : AddCall), w.calls[i]? = some c → c.Reports total →
    ∃ c' : AddCall, w'.calls[i]? = some c' ∧ c'.Reports total

theorem Counted.refl (h : Counts w total) : Counted w w total :=
  ⟨rfl, h, fun _ c hc hr => ⟨c, hc, hr⟩⟩

/-- A call moves, and if it reports the total it goes on to. -/
theorem Counted.setPc (h : Counts w total) {t : ℕ} {c : AddCall} (pc : AddPc)
    (hc : w.calls[t]? = some c) (hreturned : ∀ n, pc = .returned (.ok (some n)) → n ≤ total)
    (hwithin : pc ≠ .writing true)
    (hreports : c.Reports total → AddCall.Reports total { c with pc := pc }) :
    Counted w (w.setPc t c pc) total := by
  refine ⟨rfl, h.setPc hreturned hwithin, fun i c' hc' hr => ?_⟩
  by_cases hit : t = i
  · subst hit
    obtain rfl := Option.some.inj (hc.symm.trans hc')
    exact ⟨_, List.getElem?_set_self (List.getElem?_eq_some_iff.mp hc).1, hreports hr⟩
  · exact ⟨c', by rw [World.setPc, List.getElem?_set_ne hit, hc'], hr⟩

/-- A call leaves `write_packfiles`, and returns the total. -/
theorem Counted.unlock (h : Counts w total) {t : ℕ}
    (hstep : managerStep P keys w (.unlock t) = some w') : Counted w w' total := by
  obtain ⟨s, c, hs, hc, hstep⟩ := inCall_eq_some hstep
  split at hstep
  · rename_i exceeded hpc
    obtain ⟨-, hstep⟩ := Option.ite_none_right_eq_some.mp hstep
    obtain rfl := Option.some.inj hstep
    cases exceeded with
    | true => exact absurd hpc (h.within c (List.mem_of_getElem? hc))
    | false =>
      rw [h.counter s hs]
      refine .setPc h _ hc (fun n hn => ?_) (by simp) fun _ => Or.inr rfl
      simp only [Bool.false_eq_true, if_false, AddPc.returned.injEq, Except.ok.injEq,
        Option.some.injEq] at hn
      exact hn.ge
  · cases hstep

/-- Any other move of a call reports nothing. -/
theorem Counted.moved (h : Counts w total) {s : Session} {t : ℕ} {c : AddCall} {a : ManagerAction}
    {pc : AddPc} (hc : w.calls[t]? = some c) (hmove : PcMove P keys s.manager c.blob a c.pc pc)
    (hnot : ∀ u, a ≠ .unlock u) : Counted w (w.setPc t c pc) total := by
  have hreports : c.pc ≠ .writing false → (∀ r, c.pc ≠ .returned r) →
      c.Reports total → AddCall.Reports total { c with pc := pc } := by
    rintro hwriting hreturned (hr | hr)
    · exact absurd hr hwriting
    · exact absurd hr (hreturned _)
  obtain ⟨old, hold⟩ : ∃ old, c.pc = old := ⟨_, rfl⟩
  rw [hold] at hmove hreports
  cases hmove with
  | duplicate | noNonce | encryptFails | encrypts | triggers | rests | locks =>
    exact .setPc h _ hc (by simp) (by simp) (hreports (by simp) (by simp))
  | exceeds t | unlocks t => exact absurd rfl (hnot t)

/-- A step that creates a packfile adds its size to the total, and the call that has taken it is
to report that. -/
structure Created (w w' : World) (total i : ℕ) (id : PackfileId) (n : ℕ) : Prop where
  pos : 0 < n
  put : w.disk.packfiles id = none ∧ ∃ content : Bytes, content.length = n ∧
    w'.disk.packfiles = (w.disk.put id content).packfiles
  counts : Counts w' (total + n)
  writing : ∃ c : AddCall, w'.calls[i]? = some c ∧ c.pc = .writing false

/-- A round of a call. -/
theorem counts_write (hP : P.Lawful) (h : Counts w total) (hsized : Sized w) {s : Session} {t : ℕ}
    {c : AddCall} {exceeded : Bool} {io : PackfileIo} {m : Manager} {disk : Disk}
    {r : Except PackfileError Bool} {pc : AddPc} (hs : w.session = some s)
    (hc : w.calls[t]? = some c) (hpc : c.pc = .writing exceeded) (hio : io.Succeeds w.disk)
    (hlimit : s.manager.HasNew → s.manager.packfilesSize ≤ maxPackfileLocalBufferSize)
    (hwrite : s.manager.writePackfile P keys w.disk io = some (m, disk, r))
    (hr : (∃ e, r = .ok e ∧ pc = .writing (exceeded || e)) ∨
      ∃ e, r = .error e ∧ pc = .returned (.error e)) :
    Counted w (({ w with disk := disk }.setManager s m).setPc t c pc) total ∨
      ∃ n, Created w (({ w with disk := disk }.setManager s m).setPc t c pc) total t io.id n := by
  have hexceeded : exceeded = false := by
    by_contra htrue
    exact h.within c (List.mem_of_getElem? hc) (by rw [hpc, eq_true_of_ne_false htrue])
  -- a round that has found the total within the limit leaves the call as it was
  have hwriting : r = .ok false → pc = .writing false := by
    intro hok
    rcases hr with ⟨e, he, rfl⟩ | ⟨e, he, -⟩
    · rw [hexceeded, ← Except.ok.inj (hok.symm.trans he)]
      rfl
    · cases hok.symm.trans he
  obtain ⟨hbuf, hround⟩ := writePackfile_counts hP (hsized.queue s hs) (h.buffer s hs) hio hwrite
  obtain ⟨hdisk, hsize, hok⟩ | ⟨hnew, content, hpos, hdisk, hsize, hok⟩ := hround
  · obtain rfl := hwriting hok
    have hset : Counts ({ w with disk := disk }.setManager s m) total :=
      h.setManager 0 (hsize.trans (h.counter s hs)) hbuf
    have hmoved := Counted.setPc hset (.writing false) hc (by simp) (by simp) fun _ => Or.inl rfl
    exact Or.inl ⟨hdisk, hmoved.counts, hmoved.reports⟩
  · rw [decide_eq_false (not_lt.mpr (hlimit hnew))] at hok
    obtain rfl := hwriting hok
    have hset : Counts ({ w with disk := disk }.setManager s m) (total + content.length) :=
      h.setManager _ (by rw [hsize, h.counter s hs]) hbuf
    have hlt : t < w.calls.length := (List.getElem?_eq_some_iff.mp hc).1
    exact Or.inr ⟨content.length, hpos, ⟨hio.fresh, content, rfl, hdisk⟩,
      hset.setPc (by simp) (by simp), _, List.getElem?_set_self hlt, rfl⟩

theorem counts_step (hP : P.Lawful) {a : ManagerAction} (h : Counts w total) (hsized : Sized w)
    (hio : WritesSucceed w a) (hreported : WritesReported w a)
    (ha : (∀ names files size, a ≠ .openManager names files size) ∧ a ≠ .kill)
    (hstep : managerStep P keys w a = some w') :
    Counted w w' total ∨ ∃ i io n, a = .write i io ∧ Created w w' total i io.id n := by
  by_cases hunlock : ∃ t, a = .unlock t
  · obtain ⟨t, rfl⟩ := hunlock
    exact Or.inl (.unlock h hstep)
  cases stepped_of_managerStep hstep with
  | opened | notOpened => exact absurd rfl (ha.1 _ _ _)
  | killed => exact absurd rfl ha.2
  | added s blob pc hs hflush hpc =>
    have hnew : (∀ n, pc ≠ .returned (.ok (some n))) ∧ pc ≠ .writing true := by
      rcases hpc with ⟨rfl, -⟩ | ⟨rfl, -⟩ <;> simp
    refine Or.inl ⟨rfl, ⟨h.counter, h.buffer, fun c hc n hn => ?_, fun c hc => ?_⟩, ?_⟩
    · rcases List.mem_append.mp hc with hc | hc
      · exact h.returned c hc n hn
      · obtain rfl := List.mem_singleton.mp hc
        exact absurd hn (hnew.1 n)
    · rcases List.mem_append.mp hc with hc | hc
      · exact h.within c hc
      · obtain rfl := List.mem_singleton.mp hc
        exact hnew.2
    · intro i c hc hr
      have hlt : i < w.calls.length := (List.getElem?_eq_some_iff.mp hc).1
      exact ⟨c, (List.getElem?_append_left hlt).trans hc, hr⟩
  | moved s t c a pc hs hc hmove =>
    exact Or.inl (.moved h hc hmove fun u hu => hunlock ⟨u, hu⟩)
  | enqueued s t c blob hs hc hpc =>
    have hset : Counts
        (w.setManager s { s.manager with blobs := s.manager.blobs ++ [blob] }) total :=
      h.setManager 0 (h.counter s hs) (h.buffer s hs)
    have hmoved := Counted.setPc hset .queued hc (by simp) (by simp) (by
      rintro (hr | hr) <;> cases hpc.symm.trans hr)
    exact Or.inl ⟨hmoved.packfiles, hmoved.counts, hmoved.reports⟩
  | wrote s t c exceeded io m disk r pc hs hc hpc hwrite hr =>
    rcases counts_write hP h hsized hs hc hpc hio (hreported s hs) hwrite hr with hcase | hcase
    · exact Or.inl hcase
    · obtain ⟨n, hcreated⟩ := hcase
      exact Or.inr ⟨t, io, n, rfl, hcreated⟩
  | flushes s hs hflush hall =>
    refine Or.inl ⟨rfl, ⟨fun s' hs' => ?_, fun s' hs' => ?_, h.returned, h.within⟩,
      fun i c hc hr => ⟨c, hc, hr⟩⟩
    · obtain rfl := Option.some.inj hs'
      exact h.counter s hs
    · obtain rfl := Option.some.inj hs'
      exact h.buffer s hs
  | flushWrote s io m disk e hs hflush hwrite =>
    obtain ⟨hbuf, ⟨hdisk, hsize, -⟩ | ⟨hnew, -⟩⟩ :=
      writePackfile_counts hP (hsized.queue s hs) (h.buffer s hs) hio hwrite
    · have hset : Counts ({ w with disk := disk }.setManager s m) total :=
        h.setManager 0 (hsize.trans (h.counter s hs)) hbuf
      exact Or.inl ⟨hdisk, hset, fun i c hc hr => ⟨c, hc, hr⟩⟩
    · exact absurd hnew (hreported s hs)
  | flushFailed s io m disk e hs hflush hwrite =>
    obtain ⟨-, ⟨-, -, hok⟩ | ⟨-, content, -, -, -, hok⟩⟩ :=
      writePackfile_counts hP (hsized.queue s hs) (h.buffer s hs) hio hwrite
    · cases hok
    · cases hok
  | flushedIndex s io ix folder r hs hflush hnil hfl =>
    exact Or.inl ⟨rfl, ⟨fun s' hs' => (by cases hs'), fun s' hs' => (by cases hs'), h.returned,
      h.within⟩, fun i c hc hr => ⟨c, hc, hr⟩⟩

end

end Backuwup.Client
