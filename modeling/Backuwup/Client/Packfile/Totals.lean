/-
# The totals that calls of `add_blob` return (`pack.rs`)

A call that has been in `write_packfiles` returns the total of all packfiles, unless it has found
the total over the limit before one of its own.  So the packfile that takes the total over the
limit is still reported, and so is any total over the limit by a call that gets the mutexes only to
find that another call has emptied the queue.

Both mutexes are held through `write_packfiles` (`Locked`), so a call that finds a new blob when it
gets them writes it.  `reporting_step`: if every call does over the limit, no total that is returned
exceeds what the packfile that passed the limit has made of it.
-/
import Backuwup.Client.Packfile.FolderSize

namespace Backuwup.Client

/-! ## 1. The mutexes -/

/-- One call at most is in `write_packfiles`, and none while `flush` is. -/
structure Locked (w : World) : Prop where
  single : ∀ (i j : ℕ) (c d : AddCall), w.calls[i]? = some c → w.calls[j]? = some d →
    c.pc.isWriting = true → d.pc.isWriting = true → i = j
  flush : ∀ s, w.session = some s → s.flushing = true → ∀ c ∈ w.calls, c.pc.isWriting = false

section

variable {P : Primitives} {keys : KeyManager} {w w' : World} {a : ManagerAction}

/-- A step that lets nobody new in keeps the others out. -/
theorem Locked.mono (h : Locked w)
    (hcalls : ∀ (i : ℕ) (c' : AddCall), w'.calls[i]? = some c' → c'.pc.isWriting = true →
      ∃ c, w.calls[i]? = some c ∧ c.pc.isWriting = true)
    (hsession : ∀ s', w'.session = some s' → s'.flushing = true →
      ∃ s, w.session = some s ∧ s.flushing = true) : Locked w' where
  single i j c' d' hc' hd' hc hd := by
    obtain ⟨c, hcold, hcw⟩ := hcalls i c' hc' hc
    obtain ⟨d, hdold, hdw⟩ := hcalls j d' hd' hd
    exact h.single i j c d hcold hdold hcw hdw
  flush s' hs' hflushing c' hc' := by
    obtain ⟨s, hs, hflush⟩ := hsession s' hs' hflushing
    obtain ⟨i, hi⟩ := List.mem_iff_getElem?.mp hc'
    by_contra hwriting
    obtain ⟨c, hc, hcw⟩ := hcalls i c' hi (eq_true_of_ne_false hwriting)
    cases (h.flush s hs hflush c (List.mem_of_getElem? hc)).symm.trans hcw

/-- A call moves on without getting the mutexes. -/
theorem Locked.set (h : Locked w) {t : ℕ} {c : AddCall} {pc : AddPc}
    (hc : w.calls[t]? = some c) (hpc : pc.isWriting = true → c.pc.isWriting = true)
    (hcalls : w'.calls = w.calls.set t { c with pc := pc })
    (hsession : ∀ s', w'.session = some s' → s'.flushing = true →
      ∃ s, w.session = some s ∧ s.flushing = true) : Locked w' := by
  refine h.mono (fun i c' hc' hwriting => ?_) hsession
  rw [hcalls] at hc'
  by_cases hti : t = i
  · subst hti
    rw [List.getElem?_set_self (List.getElem?_eq_some_iff.mp hc).1] at hc'
    obtain rfl := Option.some.inj hc'
    exact ⟨c, hc, hpc hwriting⟩
  · rw [List.getElem?_set_ne hti] at hc'
    exact ⟨c', hc', hwriting⟩

/-- Who gets the mutexes is alone. -/
theorem locked_of_lock {t : ℕ} (hstep : managerStep P keys w (.lock t) = some w') :
    Locked w' := by
  obtain ⟨s, c, hs, hc, hstep⟩ := inCall_eq_some hstep
  split at hstep
  · obtain ⟨hunlocked, hstep⟩ := Option.ite_none_right_eq_some.mp hstep
    obtain rfl := Option.some.inj hstep
    simp only [World.unlocked, Bool.and_eq_true, Bool.not_eq_true', List.all_eq_true] at hunlocked
    obtain ⟨hflush, hall⟩ := hunlocked
    have hself : ∀ (i : ℕ) (c' : AddCall),
        (w.setPc t c (.writing false)).calls[i]? = some c' → c'.pc.isWriting = true → i = t := by
      intro i c' hc' hwriting
      by_contra hne
      rw [World.setPc, List.getElem?_set_ne (Ne.symm hne)] at hc'
      cases (hall c' (List.mem_of_getElem? hc')).symm.trans hwriting
    refine ⟨fun i j c' d' hc' hd' hc hd => ?_, fun s' hs' hflushing => ?_⟩
    · rw [hself i c' hc' hc, hself j d' hd' hd]
    · obtain rfl := Option.some.inj (hs.symm.trans hs')
      cases hflush.symm.trans hflushing
  · cases hstep

theorem locked_step (h : Locked w) (hstep : managerStep P keys w a = some w') : Locked w' := by
  by_cases hlock : ∃ t, a = .lock t
  · obtain ⟨t, rfl⟩ := hlock
    exact locked_of_lock hstep
  cases stepped_of_managerStep hstep with
  | opened => exact ⟨by simp, by simp⟩
  | notOpened => exact ⟨by simp, by simp⟩
  | added s blob pc hs hflush hpc =>
    refine h.mono (fun i c' hc' hwriting => ?_) fun s' hs' hflushing => ⟨s', hs', hflushing⟩
    by_cases hlt : i < w.calls.length
    · rw [List.getElem?_append_left hlt] at hc'
      exact ⟨c', hc', hwriting⟩
    · rw [List.getElem?_append_right (not_lt.mp hlt)] at hc'
      obtain rfl := List.mem_singleton.mp (List.mem_of_getElem? hc')
      rcases hpc with ⟨rfl, -⟩ | ⟨rfl, -⟩ <;> cases hwriting
  | moved s t c a pc hs hc hmove =>
    refine h.set hc ?_ rfl fun s' hs' hflushing => ⟨s', hs', hflushing⟩
    generalize c.pc = old at hmove
    intro hwriting
    cases hmove with
    | locks t => exact absurd ⟨t, rfl⟩ hlock
    | duplicate | noNonce | encryptFails | encrypts | triggers | rests | exceeds | unlocks =>
      cases hwriting
  | enqueued s t c blob hs hc hpc =>
    refine h.set hc (fun hwriting => (by cases hwriting)) rfl fun s' hs' hflushing => ?_
    obtain rfl := Option.some.inj hs'
    exact ⟨s, hs, hflushing⟩
  | wrote s t c exceeded io m disk r pc hs hc hpc hwrite hr =>
    refine h.set hc (fun _ => by rw [hpc]; rfl) rfl fun s' hs' hflushing => ?_
    obtain rfl := Option.some.inj hs'
    exact ⟨s, hs, hflushing⟩
  | flushes s hs hflush hall =>
    have hnone : ∀ c ∈ w.calls, c.pc.isWriting = false := by
      intro c hc
      have hfinished := hall c hc
      generalize c.pc = pc at hfinished
      cases pc with
      | returned | killed => rfl
      | called | encrypted | queued | overTarget | writing => cases hfinished
    exact ⟨h.single, fun _ _ _ => hnone⟩
  | flushWrote s io m disk e hs hflush hwrite =>
    refine h.mono (fun i c hc hwriting => ⟨c, hc, hwriting⟩) fun s' hs' hflushing => ?_
    obtain rfl := Option.some.inj hs'
    exact ⟨s, hs, hflushing⟩
  | flushFailed | flushedIndex =>
    exact h.mono (fun i c hc hwriting => ⟨c, hc, hwriting⟩) fun s' hs' => (by cases hs')
  | killed s hs =>
    refine h.mono (fun i c' hc' hwriting => ?_) fun s' hs' => (by cases hs')
    rw [List.getElem?_map] at hc'
    obtain ⟨c, -, rfl⟩ := Option.map_eq_some_iff.mp hc'
    obtain ⟨r, -, hr⟩ | hr := c.pc.kill_cases <;> rw [hr] at hwriting <;> cases hwriting

end

/-! ## 2. The totals -/

/-- No total above the bound has been returned, and who is in `write_packfiles` and has not found
the limit exceeded will return none: the total is not above it, or a new blob is in the queue. -/
structure Reporting (w : World) (bound : ℕ) : Prop where
  returned : ∀ c ∈ w.calls, ∀ n, c.pc = .returned (.ok (some n)) → n ≤ bound
  writing : ∀ s, w.session = some s → ∀ c ∈ w.calls, c.pc = .writing false →
    s.manager.packfilesSize ≤ bound ∨ s.manager.HasNew

/-- A call that gets the mutexes over the bound finds a new blob. -/
def LocksForNew (bound : ℕ) (w : World) : ManagerAction → Prop
  | .lock _ => ∀ s, w.session = some s → s.manager.packfilesSize ≤ bound ∨ s.manager.HasNew
  | _ => True

section

variable {P : Primitives} {keys : KeyManager} {w w' : World} {a : ManagerAction}
  {bound bound' : ℕ}

theorem Reporting.mono (h : Reporting w bound) (hle : bound ≤ bound') : Reporting w bound' where
  returned c hc n hn := (h.returned c hc n hn).trans hle
  writing s hs c hc hpc := (h.writing s hs c hc hpc).imp_left (·.trans hle)

/-- A queue with a new blob does not make an empty packfile. -/
theorem hasNew_iff {m : Manager} : m.HasNew ↔ nextPackfile m.index m.blobs ≠ [] := by
  have hunknown : ∀ blobs, unknown m.index blobs = [] ↔
      ∀ blob ∈ blobs, m.index.isBlobDuplicate blob.hash = true := by
    intro blobs
    induction blobs with
    | nil => simp [unknown]
    | cons blob blobs ih =>
      rw [unknown, List.forall_mem_cons, ← ih]
      by_cases hdup : m.index.isBlobDuplicate blob.hash = true
      · simp [hdup]
      · simp [hdup]
  have hnext : nextPackfile m.index m.blobs = [] ↔ unknown m.index m.blobs = [] := by
    rw [nextPackfile]
    cases unknown m.index m.blobs with
    | nil => simp [untilFull]
    | cons blob blobs => simp [untilFull]
  rw [Ne, hnext, hunknown, Manager.HasNew]
  push Not
  simp only [Bool.not_eq_true]

/-- What a round does to the total: a round that ends well with a new blob in the queue tells
whether the total was over the limit before. -/
theorem total_of_writePackfile {m m' : Manager} {disk disk' : Disk} {io : PackfileIo} {e : Bool}
    (h : m.writePackfile P keys disk io = some (m', disk', .ok e)) :
    (¬ m.HasNew ∧ m'.packfilesSize = m.packfilesSize ∧ e = false) ∨
      e = decide (maxPackfileLocalBufferSize < m.packfilesSize) := by
  obtain ⟨ix, draft, rest, taken, hfill, hfilled, hround⟩ := round_of_writePackfile h
  have hnext : draft = (nextPackfile m.index m.blobs).foldl PackfileDraft.add .empty :=
    fillDraft_eq hfill
  generalize hr : Except.ok e = r at hround
  cases hround with
  | nothing hzero =>
    refine Or.inl ⟨fun hnew => ?_, rfl, Except.ok.inj hr⟩
    have hcount : ∀ (blobs : List BlobEncrypted) (d : PackfileDraft),
        (blobs.foldl PackfileDraft.add d).blobCount = d.blobCount + blobs.length := by
      intro blobs
      induction blobs with
      | nil => simp
      | cons blob blobs ih =>
        intro d
        rw [List.foldl_cons, ih, List.length_cons]
        simp only [PackfileDraft.add]
        omega
    rw [hnext, hcount] at hzero
    exact hasNew_iff.mp hnew (List.length_eq_zero_iff.mp (Nat.add_eq_zero_iff.mp hzero).2)
  | written => exact Or.inr (Except.ok.inj hr)
  | notEncrypted | notCreated | torn | notRecorded => cases hr

/-- A call moves on in a session with the same total and queue. -/
theorem Reporting.setPc (h : Reporting w bound) {t : ℕ} {c : AddCall} {pc : AddPc}
    (hreturned : ∀ n, pc = .returned (.ok (some n)) → n ≤ bound)
    (hwriting : pc = .writing false → ∀ s, w.session = some s →
      s.manager.packfilesSize ≤ bound ∨ s.manager.HasNew) : Reporting (w.setPc t c pc) bound where
  returned c' hc' n hn := by
    rcases mem_setPc hc' with hc' | rfl
    · exact h.returned c' hc' n hn
    · exact hreturned n hn
  writing s hs c' hc' hpc := by
    rcases mem_setPc hc' with hc' | rfl
    · exact h.writing s hs c' hc' hpc
    · exact hwriting hpc s hs

/-- A call leaves `write_packfiles`, and the queue is empty. -/
theorem Reporting.unlock (h : Reporting w bound) {t : ℕ}
    (hstep : managerStep P keys w (.unlock t) = some w') : Reporting w' bound := by
  obtain ⟨s, c, hs, hc, hstep⟩ := inCall_eq_some hstep
  split at hstep
  · rename_i exceeded hpc
    obtain ⟨hnil, hstep⟩ := Option.ite_none_right_eq_some.mp hstep
    obtain rfl := Option.some.inj hstep
    refine h.setPc (fun n hn => ?_) (by simp)
    cases exceeded with
    | true => simp at hn
    | false =>
      obtain rfl : s.manager.packfilesSize = n := by simpa using hn
      refine (h.writing s hs c (List.mem_of_getElem? hc) hpc).resolve_right ?_
      rintro ⟨blob, hblob, -⟩
      rw [hnil] at hblob
      cases hblob
  · cases hstep

/-- A round of the call that holds the mutexes. -/
theorem Reporting.write (h : Reporting w bound) (hlocked : Locked w) (hle : bound ≤ bound')
    {s : Session} {t : ℕ} {c : AddCall} {exceeded : Bool} {io : PackfileIo} {m : Manager}
    {disk : Disk} {r : Except PackfileError Bool} {pc : AddPc} (hs : w.session = some s)
    (hc : w.calls[t]? = some c) (hpc : c.pc = .writing exceeded)
    (hwrite : s.manager.writePackfile P keys w.disk io = some (m, disk, r))
    (hr : (∃ e, r = .ok e ∧ pc = .writing (exceeded || e)) ∨
      ∃ e, r = .error e ∧ pc = .returned (.error e))
    (hcounted : s.manager.packfilesSize ≤ maxPackfileLocalBufferSize → m.packfilesSize ≤ bound') :
    Reporting (({ w with disk := disk }.setManager s m).setPc t c pc) bound' where
  returned c' hc' n hn := by
    rcases mem_setPc hc' with hc' | rfl
    · exact (h.returned c' hc' n hn).trans hle
    · rcases hr with ⟨e, -, rfl⟩ | ⟨e, -, rfl⟩ <;> cases hn
  writing s' hs' c' hc' hpc' := by
    obtain rfl := Option.some.inj hs'
    obtain ⟨i, hi⟩ := List.mem_iff_getElem?.mp hc'
    have hit : i = t := by
      by_contra hne
      rw [World.setPc, List.getElem?_set_ne (Ne.symm hne)] at hi
      exact hne (hlocked.single i t c' c hi hc (by rw [hpc']; rfl) (by rw [hpc]; rfl))
    subst hit
    obtain rfl := Option.some.inj
      ((List.getElem?_set_self (List.getElem?_eq_some_iff.mp hc).1).symm.trans hi)
    have hpc'' : pc = .writing false := hpc'
    rcases hr with ⟨e, rfl, rfl⟩ | ⟨e, -, rfl⟩
    · obtain ⟨rfl, rfl⟩ : exceeded = false ∧ e = false := by simpa using hpc''
      refine Or.inl ?_
      change m.packfilesSize ≤ bound'
      rcases total_of_writePackfile hwrite with ⟨hnone, hsame, -⟩ | hlimit
      · rw [hsame]
        exact ((h.writing s hs c (List.mem_of_getElem? hc) hpc).resolve_right hnone).trans hle
      · exact hcounted (not_lt.mp (of_decide_eq_false hlimit.symm))
    · cases hpc''

/-- What one step makes of the totals. -/
theorem reporting_step (h : Reporting w bound) (hlocked : Locked w) (hle : bound ≤ bound')
    (ha : (∀ names files size, a ≠ .openManager names files size) ∧ a ≠ .kill)
    (hlock : LocksForNew bound w a)
    (hcounted : ∀ x y, w.session = some x → w'.session = some y →
      x.manager.packfilesSize ≤ maxPackfileLocalBufferSize → y.manager.packfilesSize ≤ bound')
    (hstep : managerStep P keys w a = some w') : Reporting w' bound' := by
  by_cases hunlock : ∃ t, a = .unlock t
  · obtain ⟨t, rfl⟩ := hunlock
    exact (h.unlock hstep).mono hle
  cases stepped_of_managerStep hstep with
  | opened | notOpened => exact absurd rfl (ha.1 _ _ _)
  | killed => exact absurd rfl ha.2
  | added s blob pc hs hflush hpc =>
    have hnew : (∀ n, pc ≠ .returned (.ok (some n))) ∧ pc ≠ .writing false := by
      rcases hpc with ⟨rfl, -⟩ | ⟨rfl, -⟩ <;> simp
    refine Reporting.mono ⟨fun c hc n hn => ?_, fun s' hs' c hc hwriting => ?_⟩ hle
    · rcases List.mem_append.mp hc with hc | hc
      · exact h.returned c hc n hn
      · obtain rfl := List.mem_singleton.mp hc
        exact absurd hn (hnew.1 n)
    · rcases List.mem_append.mp hc with hc | hc
      · exact h.writing s' hs' c hc hwriting
      · obtain rfl := List.mem_singleton.mp hc
        exact absurd hwriting hnew.2
  | moved s t c a pc hs hc hmove =>
    refine Reporting.mono (h.setPc ?_ ?_) hle
    · generalize c.pc = old at hmove
      intro n hn
      cases hmove with
      | unlocks t => exact absurd ⟨t, rfl⟩ hunlock
      | duplicate | noNonce | encryptFails | encrypts | triggers | rests | locks | exceeds =>
        cases hn
    · generalize c.pc = old at hmove
      intro hwriting
      cases hmove with
      | locks t => exact hlock
      | duplicate | noNonce | encryptFails | encrypts | triggers | rests | exceeds | unlocks =>
        cases hwriting
  | enqueued s t c blob hs hc hpc =>
    have hset : Reporting
        (w.setManager s { s.manager with blobs := s.manager.blobs ++ [blob] }) bound := by
      refine ⟨h.returned, fun s' hs' c' hc' hwriting => ?_⟩
      obtain rfl := Option.some.inj hs'
      refine (h.writing s hs c' hc' hwriting).imp_right ?_
      rintro ⟨b, hb, hnew⟩
      exact ⟨b, List.mem_append_left _ hb, hnew⟩
    exact (hset.setPc (by simp) (by simp)).mono hle
  | wrote s t c exceeded io m disk r pc hs hc hpc hwrite hr =>
    exact h.write hlocked hle hs hc hpc hwrite hr (hcounted s _ hs rfl)
  | flushes s hs hflush hall =>
    refine Reporting.mono ⟨h.returned, fun s' hs' c hc hwriting => ?_⟩ hle
    obtain rfl := Option.some.inj hs'
    exact h.writing s hs c hc hwriting
  | flushWrote s io m disk e hs hflush hwrite =>
    refine ⟨fun c hc n hn => (h.returned c hc n hn).trans hle, fun s' _ c hc hwriting => ?_⟩
    have hnot := hlocked.flush s hs hflush c hc
    rw [hwriting] at hnot
    cases hnot
  | flushFailed | flushedIndex =>
    exact ⟨fun c hc n hn => (h.returned c hc n hn).trans hle, fun s' hs' => (by cases hs')⟩

end

end Backuwup.Client
