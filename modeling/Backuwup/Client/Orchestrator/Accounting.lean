/-
# The bytes that are written and the bytes that are sent (`pack.rs`, `dir_packer.rs`, `send.rs`)

What is available for sending is what the packer has reported as written, less what has been sent.
A total is reported by the task whose call of `add_blob` returns it, which stores it over whatever
is there; a call that returns `ExceededBufferLimit` reports nothing, nor does `flush`.  `send`
remembers the total that it had read before its last complete pass and makes another pass once the
stored total is larger.

Here a backup begins before `Manager::new` has looked at the folder and before `send` has read the
counters for the first time, for `pack` and `send` are started together.  `accounts_agree`: in a run
without I/O errors in which each new packfile is reported, totals are stored in order, and the two
begin before there is anything to miss, what is available is the size of the folder whenever no
call is under way.  `send` has to leave a packfile alone that is still being written: it would
count the part that it finds.  (The folder is that with the last writes in it: nothing in `pack.rs`
waits for them.)  In `flush_unreported` the only packfile is that of the flush, and
`send` does not learn of it.
-/
import Backuwup.Client.Orchestrator.HalfWritten
import Backuwup.Client.Orchestrator.ResumeCheck
import Backuwup.Client.Packfile.FolderSize

namespace Backuwup.Client.Accounting

open Transition Buffering

/-! ## 1. A whole backup -/

/-- A backup, with the packfiles that it has created so far, those that it had created when `send`
last read the counters, and those when it read them for its last complete pass. -/
structure Backup where
  state : State
  /-- `Manager::new` has returned -/
  opened : Bool
  /-- `send` has read the counters for the first time -/
  sending : Bool
  created : ℕ
  loaded : ℕ
  passed : ℕ

/-- `initialize_static` has returned. -/
def begin (k : ℕ) (disk : Disk) (left : ℕ) : Backup where
  state := { start k disk ⟨[], [], [], 0, false⟩ left true with
    world := ⟨disk, [], [], none, false⟩ }
  opened := false
  sending := false
  created := 0
  loaded := 0
  passed := 0

inductive Event
  /-- `Manager::new` -/
  | openManager (names : List FileName) (files : Folder) (size : ℕ)
  /-- the first lines of `send` -/
  | beginSend
  | act (a : Action)

/-- The packfile that a step may create. -/
def packfileId : Action → Option PackfileId
  | .call _ (.write io) | .flush (.write io) => some io.id
  | _ => none

def isSend : Action → Bool
  | .send _ => true
  | _ => false

/-- The state after a step, and what it has created and read. -/
def Backup.after (b : Backup) (a : Action) (s : State) : Backup :=
  { b with
    state := s
    created := match (packfileId a).bind (b.state.created s.world) with
      | some _ => b.created + 1
      | none => b.created
    loaded := match a with
      | .send .load => b.created
      | _ => b.loaded
    passed := match a with
      | .send .listed => b.loaded
      | _ => b.passed }

def step (P : Primitives) (keys : KeyManager) (b : Backup) : Event → Option Backup
  | .openManager names files size =>
    if b.opened then none
    else
      (managerStep P keys b.state.world (.openManager names files size)).map fun w =>
        { b with state := { b.state with world := w }, opened := true }
  | .beginSend =>
    if b.sending then none
    else
      some { b with
        state := { b.state with sender := { b.state.sender with
          lastWritten := b.state.packfileBytesWritten
          lastMatched := b.state.storageRequestLastMatched } }
        sending := true }
  | .act a =>
    if isSend a && !b.sending then none
    else (Buffering.step P keys b.state a).map (b.after a)

/-! ## 2. The property and its condition -/

/-- No call of `add_blob`, of `flush` or of `send_single_packfile` is under way. -/
structure Quiet (s : State) : Prop where
  adding : ∀ c ∈ s.callers, ∀ i wrote, c ≠ .adding i wrote
  flushing : ∀ x, s.world.session = some x → x.flushing = false
  sending : ∀ written matched id size, s.sender.pc ≠ .acking written matched id size

/-- The packfiles in the folder take so many bytes, with what has been written of the last one. -/
def Occupies (s : State) (size : ℕ) : Prop :=
  ∃ whole, s.world.disk.Occupies whole ∧ whole + s.part = size

/-- What is available is what lies in the folder, and `send` will make a pass if a packfile has
been created since its last one. -/
structure Accurate (b : Backup) : Prop where
  available : Quiet b.state → 0 < b.created → Occupies b.state b.state.availablePackfileBytes
  trigger : Quiet b.state → b.passed < b.created →
    b.state.sender.lastWritten < b.state.packfileBytesWritten

/-- No I/O fails. -/
def NoIoErrors (b : Backup) : Event → Prop
  | .openManager _ _ size => b.state.world.disk.Occupies size
  | .act (.call _ (.write io)) | .act (.flush (.write io)) => io.Succeeds b.state.world.disk
  | .act (.send (.acked removed)) => removed = true
  | _ => True

/-- A packfile is created by a call of `add_blob` and within the limit, totals are stored in order,
and the size of a packfile is taken when all of it is there.  `Manager::new` comes before anything
is sent and `send` before anything is stored. -/
def Reported (b : Backup) : Event → Prop
  | .openManager .. => b.state.packfileBytesSent = 0
  | .beginSend => b.state.packfileBytesWritten = 0
  | .act (.call _ (.write _)) => ∀ x, b.state.world.session = some x → x.manager.HasNew →
    x.manager.packfilesSize ≤ maxPackfileLocalBufferSize
  | .act (.returned t) => ∀ total ∈ b.state.reported t, b.state.packfileBytesWritten ≤ total
  | .act (.flush (.write _)) => ∀ x, b.state.world.session = some x → ¬ x.manager.HasNew
  | .act (.send (.stat id size)) => ∃ content, b.state.world.disk.packfiles id = some content ∧
    content.length = size
  | _ => True

/-! ## 3. Steps of the manager -/

/-- The step of the manager that a step of a task is. -/
inductive Manages (P : Primitives) : Action → ManagerAction → Prop
  | add (t : ℕ) (kind : BlobKind) (data : Bytes) :
      Manages P (.add t kind data) (.addBlob ⟨P.hash data, kind, data⟩)
  | call (t i : ℕ) (e : CallEvent) : Manages P (.call t e) (e.toAction i)
  | begin : Manages P (.flush .begin) .flush
  | write (io : PackfileIo) : Manages P (.flush (.write io)) (.flushWrite io)
  | index (io : FileWrite) : Manages P (.flush (.index io)) (.flushIndex io)

section

variable {P : Primitives} {keys : KeyManager} {s s' : State} {a : Action} {m : ManagerAction}
  {b : Backup} {total : ℕ}

theorem Manages.succeeds (h : Manages P a m) (hio : NoIoErrors b (.act a)) :
    WritesSucceed b.state.world m := by
  cases h with
  | call t i e =>
    cases e with
    | write io => exact hio
    | check | enqueue | trigger | lock | unlock => trivial
  | write io => exact hio
  | add | begin | index => trivial

theorem Manages.reported (h : Manages P a m) (hreported : Reported b (.act a)) :
    WritesReported b.state.world m := by
  cases h with
  | call t i e =>
    cases e with
    | write io => exact hreported
    | check | enqueue | trigger | lock | unlock => trivial
  | write io => exact hreported
  | add | begin | index => trivial

/-- It is not one that opens the manager or kills the process. -/
theorem Manages.inSession (h : Manages P a m) :
    (∀ names files size, m ≠ .openManager names files size) ∧ m ≠ .kill := by
  cases h with
  | call t i e => cases e <;> exact ⟨fun _ _ _ h => (by cases h), fun h => (by cases h)⟩
  | add | begin | write | index => exact ⟨fun _ _ _ h => (by cases h), fun h => (by cases h)⟩

theorem Manages.packfileId {t : ℕ} {io : PackfileIo} (h : Manages P a (.write t io)) :
    packfileId a = some io.id := by
  generalize hm : ManagerAction.write t io = m at h
  cases h with
  | call u i e =>
    cases e with
    | write io' =>
      obtain ⟨-, rfl⟩ := ManagerAction.write.inj hm
      rfl
    | check | enqueue | trigger | lock | unlock => cases hm
  | add | begin | write | index => cases hm

/-- A step that needs the session finds it open. -/
theorem session_of_managerStep {w w' : World}
    (ha : ∀ names files size, m ≠ .openManager names files size)
    (h : managerStep P keys w m = some w') : ∃ x, w.session = some x := by
  cases stepped_of_managerStep h with
  | opened | notOpened => exact absurd rfl (ha _ _ _)
  | added x | moved x | enqueued x | wrote x | flushes x | flushWrote x | flushFailed x
    | flushedIndex x | killed x => exact ⟨x, by assumption⟩

/-- What such a step leaves alone. -/
structure Managed (P : Primitives) (keys : KeyManager) (s : State) (a : Action)
    (m : ManagerAction) (s' : State) : Prop where
  manages : Manages P a m
  world : managerStep P keys s.world m = some s'.world
  sender : s'.sender = s.sender
  sent : s'.packfileBytesSent = s.packfileBytesSent
  written : s'.packfileBytesWritten = s.packfileBytesWritten
  callers : ∀ (t i : ℕ) (wrote : Bool), s.callers[t]? = some (.adding i wrote) →
    ∃ wrote' : Bool, s'.callers[t]? = some (.adding i wrote')
  caller : ∀ (i : ℕ) (io : PackfileIo), m = .write i io →
    ∃ (t : ℕ) (wrote : Bool), s'.callers[t]? = some (.adding i wrote)

theorem managed_add {t : ℕ} {kind : BlobKind} {data : Bytes}
    (h : Buffering.step P keys s (.add t kind data) = some s') :
    Managed P keys s (.add t kind data) (.addBlob ⟨P.hash data, kind, data⟩) s' := by
  simp only [Buffering.step] at h
  split at h
  · rename_i ht
    obtain ⟨w, hw, rfl⟩ := Option.map_eq_some_iff.mp h
    refine ⟨.add t kind data, hw, rfl, rfl, rfl, fun u i wrote hu => ⟨wrote, ?_⟩, by simp⟩
    rw [getElem?_setCaller (s := { s with world := w }) ht, if_neg]
    · exact hu
    · rintro rfl
      cases ht.symm.trans hu
  · cases h

theorem managed_call {t : ℕ} {e : CallEvent} (hhalf : s.half.any Half.deleted = false)
    (h : Buffering.step P keys s (.call t e) = some s') :
    ∃ i, Managed P keys s (.call t e) (e.toAction i) s' := by
  cases moved_of_step h with
  | calls t e i wrote w ht hw hne =>
    refine ⟨i, .call t i e, hw, rfl, rfl, rfl, fun u j wrote' hu => ⟨wrote', hu⟩, ?_⟩
    intro j io hm
    cases e with
    | write io' => exact absurd rfl (hne io')
    | check | enqueue | trigger | lock | unlock => cases hm
  | writes t io i wrote w ht hw =>
    have ht' : (s.record t w io.id).callers[t]? = some (.adding i wrote) := by
      rw [record_callers]
      exact ht
    refine ⟨i, .call t i (.write io), ?_, ?_, ?_, ?_, fun u j wrote' hu => ?_, ?_⟩
    · rw [State.setCaller, record_world hhalf]
      exact hw
    · simp [State.setCaller]
    · simp [State.setCaller]
    · simp [State.setCaller]
    · rw [getElem?_setCaller ht', record_callers]
      by_cases hut : u = t
      · subst hut
        obtain ⟨rfl, -⟩ := Caller.adding.inj (Option.some.inj (ht.symm.trans hu))
        exact ⟨_, if_pos rfl⟩
      · exact ⟨wrote', (if_neg hut).trans hu⟩
    · intro j io' hm
      obtain ⟨rfl, -⟩ := ManagerAction.write.inj hm
      exact ⟨t, _, by rw [getElem?_setCaller ht', if_pos rfl]⟩

/-- `flush` takes a step of the manager, or has come so far with a packfile. -/
theorem managed_flush {e : FlushEvent} (hhalf : s.half.any Half.deleted = false)
    (h : Buffering.step P keys s (.flush e) = some s') :
    (∃ id length, e = .grow id length) ∨ ∃ m, Managed P keys s (.flush e) m s' := by
  cases moved_of_step h with
  | flushes w hall hw =>
    exact Or.inr ⟨_, .begin, hw, rfl, rfl, rfl, fun t i wrote ht => ⟨wrote, ht⟩, by simp⟩
  | flushGrows id length => exact Or.inl ⟨id, length, rfl⟩
  | flushWrites io w hw =>
    refine Or.inr ⟨_, .write io, ?_, record_sender, record_sent, record_written, ?_, by simp⟩
    · rw [record_world hhalf]
      exact hw
    · intro t i wrote ht
      exact ⟨wrote, by rw [record_callers, ht]⟩
  | flushIndexes io w hw =>
    exact Or.inr ⟨_, .index io, hw, rfl, rfl, rfl, fun t i wrote ht => ⟨wrote, ht⟩, by simp⟩

end

/-! ## 4. The totals agree -/

/-- The total has been stored, or a task is in a call that reports it. -/
def Stored (s : State) (total : ℕ) : Prop :=
  s.packfileBytesWritten = total ∨ ∃ (t i : ℕ) (wrote : Bool) (c : AddCall),
    s.callers[t]? = some (.adding i wrote) ∧ s.world.calls[i]? = some c ∧ c.Reports total

/-- The total that `send` has read for the pass it is about to make, or makes. -/
def lastRead (x : Sender) : Option ℕ :=
  match x.pc with
  | .connecting written _ | .sending written _ | .acking written _ _ _ => some written
  | _ => none

/-- What `send` has read is behind the total if a packfile has been created since. -/
structure Behind (b : Backup) (total : ℕ) : Prop where
  last : b.state.sender.lastWritten ≤ total
  passed : b.passed < b.created → b.state.sender.lastWritten < total
  loaded : ∀ written ∈ lastRead b.state.sender,
    written ≤ total ∧ (b.loaded < b.created → written < total)

/-- The total of the manager is what lies in the folder in whole and what has been sent. -/
structure Tallied (b : Backup) (total : ℕ) : Prop where
  sized : Sized b.state.world
  counts : Counts b.state.world total
  folder : ∃ size, b.state.world.disk.Occupies size ∧ size + b.state.packfileBytesSent = total
  within : b.state.packfileBytesWritten ≤ total
  stored : 0 < b.created → Stored b.state total
  pos : 0 < b.created → 0 < total
  behind : Behind b total
  unopened : b.opened = false → b.state.world.session = none ∧ b.created = 0

section

variable {P : Primitives} {keys : KeyManager} {s s' : State} {a : Action} {m : ManagerAction}
  {b b' : Backup} {total : ℕ}

theorem tallied_begin {k left : ℕ} {disk : Disk} (h : disk.Occupies left) :
    Tallied (begin k disk left) left where
  sized := ⟨by simp [begin], by simp [begin], by simp [begin]⟩
  counts := ⟨by simp [begin], by simp [begin], by simp [begin], by simp [begin]⟩
  folder := ⟨left, h, rfl⟩
  within := Nat.zero_le _
  stored h := absurd h (lt_irrefl 0)
  pos h := absurd h (lt_irrefl 0)
  behind := ⟨Nat.zero_le _, fun h => absurd h (lt_irrefl 0), fun _ h => (by cases h)⟩
  unopened _ := ⟨rfl, rfl⟩

theorem leftAlone_begin {k left : ℕ} {disk : Disk} : LeftAlone (begin k disk left).state where
  writing h := absurd rfl h
  half h hhalf := by cases hhalf
  acking _ _ _ _ hpc := by cases hpc

/-- When no call is under way the total has been stored. -/
theorem Stored.of_quiet (h : Stored s total) (hquiet : Quiet s) :
    s.packfileBytesWritten = total := by
  rcases h with h | ⟨t, i, wrote, c, ht, -⟩
  · exact h
  · exact absurd rfl (hquiet.adding _ (List.mem_of_getElem? ht) i wrote)

/-- Nor is a packfile being written then. -/
theorem part_of_quiet (h : LeftAlone s) (hquiet : Quiet s) : s.part = 0 := by
  cases hhalf : s.half with
  | none => rw [State.part, hhalf, Option.elim_none]
  | some half =>
    obtain ⟨x, hx, -, hflushing | ⟨t, i, wrote, c, ht, -⟩⟩ :=
      h.writing (by rw [hhalf]; exact Option.some_ne_none half)
    · cases hflushing.symm.trans (hquiet.flushing x hx)
    · exact absurd rfl (hquiet.adding _ (List.mem_of_getElem? ht) i wrote)

theorem Tallied.accurate (h : Tallied b total) (hhalf : LeftAlone b.state) : Accurate b where
  available hquiet hcreated := by
    have hwritten := (h.stored hcreated).of_quiet hquiet
    obtain ⟨size, hsize, hsum⟩ := h.folder
    refine ⟨size, hsize, ?_⟩
    rw [part_of_quiet hhalf hquiet, State.availablePackfileBytes, hwritten]
    omega
  trigger hquiet hpassed := by
    rw [(h.stored (by omega)).of_quiet hquiet]
    exact h.behind.passed hpassed

/-- A task moves on and creates no packfile. -/
theorem Tallied.moves (h : Tallied b total) (hsized : Sized s'.world)
    (hcounted : Counted b.state.world s'.world total) (hsender : s'.sender = b.state.sender)
    (hsent : s'.packfileBytesSent = b.state.packfileBytesSent)
    (hwithin : s'.packfileBytesWritten ≤ total)
    (hstored : Stored b.state total → Stored s' total)
    (hsession : b.opened = false → s'.world.session = none) :
    Tallied { b with state := s' } total where
  sized := hsized
  counts := hcounted.counts
  folder := by
    obtain ⟨size, hsize, hsum⟩ := h.folder
    exact ⟨size, hsize.congr hcounted.packfiles, by rw [hsent, hsum]⟩
  within := hwithin
  stored hcreated := hstored (h.stored hcreated)
  pos := h.pos
  behind := by
    obtain ⟨hlast, hpassed, hloaded⟩ := h.behind
    rw [← hsender] at hlast hpassed hloaded
    exact ⟨hlast, hpassed, hloaded⟩
  unopened hopened := ⟨hsession hopened, (h.unopened hopened).2⟩

/-- A task creates a packfile. -/
theorem Tallied.creates (h : Tallied b total) {i n : ℕ} {id : PackfileId}
    (hsized : Sized s'.world) (hcreated : Created b.state.world s'.world total i id n)
    (hsender : s'.sender = b.state.sender)
    (hsent : s'.packfileBytesSent = b.state.packfileBytesSent)
    (hwritten : s'.packfileBytesWritten = b.state.packfileBytesWritten)
    (hcaller : ∃ (t : ℕ) (wrote : Bool), s'.callers[t]? = some (.adding i wrote))
    (hopened : b.opened = true) :
    Tallied { b with state := s', created := b.created + 1 } (total + n) where
  sized := hsized
  counts := hcreated.counts
  folder := by
    obtain ⟨size, hsize, hsum⟩ := h.folder
    obtain ⟨hnone, content, hlen, hput⟩ := hcreated.put
    refine ⟨size + n, ?_, ?_⟩
    · rw [← hlen]
      exact (hsize.put hnone).congr hput
    · change size + n + s'.packfileBytesSent = total + n
      omega
  within := by
    have hle := h.within
    change s'.packfileBytesWritten ≤ total + n
    omega
  stored _ := by
    obtain ⟨t, wrote, ht⟩ := hcaller
    obtain ⟨c, hc, hpc⟩ := hcreated.writing
    exact Or.inr ⟨t, i, wrote, c, ht, hc, Or.inl hpc⟩
  pos _ := Nat.add_pos_right _ hcreated.pos
  behind := by
    have hpos := hcreated.pos
    obtain ⟨hlast, -, hloaded⟩ := h.behind
    rw [← hsender] at hlast hloaded
    refine ⟨hlast.trans (Nat.le_add_right _ _), fun _ => ?_, fun written hread => ?_⟩
    · exact hlast.trans_lt (Nat.lt_add_of_pos_right hpos)
    · have hle := (hloaded written hread).1
      exact ⟨hle.trans (Nat.le_add_right _ _), fun _ => hle.trans_lt (Nat.lt_add_of_pos_right hpos)⟩
  unopened hnot := absurd (hopened.symm.trans hnot) (by simp)

/-- Without a new packfile nothing is counted. -/
theorem after_of_none (hsend : isSend a = false)
    (hnone : (packfileId a).bind (b.state.created s'.world) = none) :
    b.after a s' = { b with state := s' } := by
  cases a with
  | send e => cases hsend
  | add | call | grow | returned | block | flush | complete | matched =>
    simp only [Backup.after, hnone]

theorem after_of_some {id : PackfileId} {n : ℕ} (hsend : isSend a = false)
    (hid : packfileId a = some id) (hsome : b.state.created s'.world id = some n) :
    b.after a s' = { b with state := s', created := b.created + 1 } := by
  cases a with
  | send e => cases hsend
  | add | call | grow | returned | block | flush | complete | matched =>
    simp only [Backup.after, hid, Option.bind_some, hsome]

/-- A step of the manager keeps the totals in agreement. -/
theorem Tallied.managed (hP : P.Lawful) (h : Tallied b total) (hsend : isSend a = false)
    (hm : Managed P keys b.state a m s') (hio : NoIoErrors b (.act a))
    (hreported : Reported b (.act a)) : ∃ total', Tallied (b.after a s') total' := by
  have hsized := sized_step hP h.sized hm.world
  obtain ⟨x, hx⟩ := session_of_managerStep hm.manages.inSession.1 hm.world
  have hopened : b.opened = true := by
    by_contra hnot
    cases hx.symm.trans (h.unopened (eq_false_of_ne_true hnot)).1
  rcases counts_step hP h.counts h.sized (hm.manages.succeeds hio) (hm.manages.reported hreported)
    hm.manages.inSession hm.world with hcounted | ⟨i, io, n, rfl, hcreated⟩
  · have hnone : (packfileId a).bind (b.state.created s'.world) = none := by
      rw [Option.bind_eq_none_iff]
      intro id _
      cases hcreated : b.state.created s'.world id with
      | none => rfl
      | some n =>
        obtain ⟨hbefore, content, hafter, -⟩ := State.created_eq_some.mp hcreated
        rw [hcounted.packfiles, hbefore] at hafter
        cases hafter
    rw [after_of_none hsend hnone]
    refine ⟨total, h.moves hsized hcounted hm.sender hm.sent (hm.written ▸ h.within) ?_
      fun hnot => absurd (hopened.symm.trans hnot) (by simp)⟩
    rintro (hstored | ⟨t, i, wrote, c, ht, hc, hr⟩)
    · exact Or.inl (hm.written.trans hstored)
    · obtain ⟨wrote', ht'⟩ := hm.callers t i wrote ht
      obtain ⟨c', hc', hr'⟩ := hcounted.reports i c hc hr
      exact Or.inr ⟨t, i, wrote', c', ht', hc', hr'⟩
  · have hsome : b.state.created s'.world io.id = some n := by
      obtain ⟨hnone, content, hlen, hput⟩ := hcreated.put
      refine State.created_eq_some.mpr ⟨hnone, content, ?_, hlen⟩
      rw [hput]
      exact Function.update_self _ _ _
    rw [after_of_some hsend hm.manages.packfileId hsome]
    exact ⟨_, h.creates hsized hcreated hm.sender hm.sent hm.written (hm.caller i io rfl) hopened⟩

/-- A call is left with a total in store that is not behind what it reports. -/
theorem Stored.setCaller (h : Stored s total) {t i written : ℕ} {wrote : Bool} {call : AddCall}
    {c : Caller} (ht : s.callers[t]? = some (.adding i wrote))
    (hcall : s.world.calls[i]? = some call) (hge : s.packfileBytesWritten ≤ written)
    (hle : written ≤ total) (hown : call.Reports total → written = total) :
    Stored ({ s with packfileBytesWritten := written }.setCaller t c) total := by
  obtain hstored | ⟨u, j, wrote', d, hu, hd, hr⟩ := h
  · exact Or.inl (le_antisymm hle (hstored ▸ hge))
  · by_cases hut : u = t
    · subst hut
      obtain ⟨rfl, -⟩ := Caller.adding.inj (Option.some.inj (ht.symm.trans hu))
      obtain rfl := Option.some.inj (hcall.symm.trans hd)
      exact Or.inl (hown hr)
    · refine Or.inr ⟨u, j, wrote', d, ?_, hd, hr⟩
      rw [getElem?_setCaller (s := { s with packfileBytesWritten := written }) ht, if_neg hut]
      exact hu

/-- A task stores the total that its call has returned. -/
theorem Tallied.returned (h : Tallied b total) {t : ℕ}
    (hreported : Reported b (.act (.returned t)))
    (hst : Buffering.step P keys b.state (.returned t) = some s') :
    Tallied { b with state := s' } total ∧
      b.state.packfileBytesWritten ≤ s'.packfileBytesWritten := by
  have hsession : b.opened = false → b.state.world.session = none := fun hopened =>
    (h.unopened hopened).1
  cases moved_of_step hst with
  | returnsOk t i wrote call written ht hcall hpc =>
    have htotal : b.state.reported t = written := by
      simp only [State.reported, ht, hcall, hpc, Option.map_some]
    have hstored : b.state.packfileBytesWritten ≤ written.getD b.state.packfileBytesWritten ∧
        written.getD b.state.packfileBytesWritten ≤ total ∧
        (call.Reports total → written.getD b.state.packfileBytesWritten = total) := by
      cases written with
      | none =>
        refine ⟨le_refl _, h.within, ?_⟩
        rintro (hr | hr) <;> cases hpc.symm.trans hr
      | some n =>
        refine ⟨hreported n htotal, h.counts.returned call (List.mem_of_getElem? hcall) n hpc, ?_⟩
        rintro (hr | hr)
        · cases hpc.symm.trans hr
        · simpa [hpc] using hr
    obtain ⟨hge, hle, hown⟩ := hstored
    exact ⟨h.moves h.sized (.refl h.counts) rfl rfl hle
      (fun hs => hs.setCaller ht hcall hge hle hown) hsession, hge⟩
  | returnsError t i wrote call x ht hcall hpc =>
    refine ⟨h.moves h.sized (.refl h.counts) rfl rfl h.within (fun hs => ?_) hsession, le_refl _⟩
    refine hs.setCaller ht hcall (le_refl _) h.within ?_
    rintro (hr | hr) <;> cases hpc.symm.trans hr

/-- A task goes on in `block_if_paused!`. -/
theorem Tallied.blocked (h : Tallied b total) {t : ℕ} {e : BlockEvent}
    (hst : Buffering.step P keys b.state (.block t e) = some s') :
    Tallied { b with state := s' } total ∧
      b.state.packfileBytesWritten ≤ s'.packfileBytesWritten := by
  cases moved_of_step hst with
  | blocks t e p ht hp =>
    refine ⟨h.moves h.sized (.refl h.counts) rfl rfl h.within ?_ fun hopened =>
      (h.unopened hopened).1, le_refl _⟩
    rintro (hstored | ⟨u, j, wrote', d, hu, hd, hr⟩)
    · exact Or.inl hstored
    · refine Or.inr ⟨u, j, wrote', d, ?_, hd, hr⟩
      rw [getElem?_setCaller (s := { b.state with pause := p }) ht, if_neg]
      · exact hu
      · rintro rfl
        cases ht.symm.trans hu

/-! ## 5. Steps of `send` -/

/-- Only an acknowledgement changes anything but the flag and the variables of `send`. -/
theorem kept_of_sendStep {e : SendEvent} (he : ∀ removed, e ≠ .acked removed)
    (hst : sendStep s e = some s') : s'.world = s.world ∧ s'.callers = s.callers ∧
      s'.packfileBytesWritten = s.packfileBytesWritten ∧
      s'.packfileBytesSent = s.packfileBytesSent := by
  cases sends_of_sendStep hst with
  | acked | keeps => exact absurd rfl (he _)
  | pauses | checks | subscribes | loads | begins | rests | unconnected | stats | fails | listed
    | underflows | resumes | goesOn | resumed | finishes | indexed | indexFails =>
    exact ⟨rfl, rfl, rfl, rfl⟩

theorem lastRead_rest (x : Sender) : lastRead x.rest = none := by
  simp only [lastRead, Sender.rest]
  cases x.packfilesDone <;> rfl

/-- What `send` has read stays behind a total with packfiles that it has not seen. -/
theorem Behind.send (h : Behind b total) {e : SendEvent}
    (hwithin : b.state.packfileBytesWritten ≤ total)
    (hst : sendStep b.state e = some s') : Behind (b.after (.send e) s') total := by
  cases sends_of_sendStep hst with
  | loads =>
    refine { h with loaded := fun written hread => ?_ }
    obtain rfl := Option.some.inj hread
    exact ⟨hwithin, fun hloaded => absurd hloaded (lt_irrefl _)⟩
  | listed written matched hpc =>
    have hread : lastRead b.state.sender = some written := by simp only [lastRead, hpc]
    obtain ⟨hle, hlt⟩ := h.loaded written hread
    exact ⟨hle, hlt, fun _ hnone => (by cases hnone)⟩
  | begins ok written matched hpc =>
    have hread : lastRead b.state.sender = some written := by simp only [lastRead, hpc]
    exact { h with loaded := fun _ hsame => h.loaded _ (hread.trans hsame) }
  | stats written matched id size hpc | acked written matched id size hpc =>
    have hread : lastRead b.state.sender = some written := by simp only [lastRead, hpc]
    exact { h with loaded := fun _ hsame => h.loaded _ (hread.trans hsame) }
  | rests | finishes =>
    refine { h with loaded := fun _ hnone => ?_ }
    cases (lastRead_rest _).symm.trans hnone
  | resumed r p =>
    refine { h with loaded := fun _ hnone => ?_ }
    by_cases hidle : p.sender = SenderPc.idle
    · simp [Backup.after, lastRead, State.setSender, hidle] at hnone
    · simp [Backup.after, lastRead, State.setSender, hidle] at hnone
  | pauses | checks | subscribes | unconnected | keeps | fails | underflows | resumes | goesOn
    | indexed | indexFails => exact { h with loaded := fun _ hnone => (by cases hnone) }

theorem Tallied.send (h : Tallied b total) (hhalf : LeftAlone b.state) {e : SendEvent}
    (hio : NoIoErrors b (.act (.send e))) (hst : sendStep b.state e = some s') :
    Tallied (b.after (.send e) s') total ∧
      s'.packfileBytesWritten = b.state.packfileBytesWritten := by
  have hbehind := h.behind.send h.within hst
  by_cases hacked : ∃ removed, e = .acked removed
  · obtain ⟨removed, rfl⟩ := hacked
    obtain rfl : removed = true := hio
    cases sends_of_sendStep hst with
    | acked written matched id sent hpc =>
      -- the size that was taken is the size that goes
      obtain ⟨content, hcontent, hlen⟩ := hhalf.acking written matched id sent hpc
      obtain ⟨size, hsize, hsum⟩ := h.folder
      obtain ⟨rest, hrest, hremoved⟩ := hsize.remove hcontent
      have hfolder : rest + (b.state.packfileBytesSent + sent) = total := by omega
      exact ⟨{ h with
        sized := { h.sized with }
        counts := { h.counts with }
        folder := ⟨rest, hremoved, hfolder⟩
        behind := hbehind }, rfl⟩
  · obtain ⟨hworld, hcallers, hwritten, hsent⟩ :=
      kept_of_sendStep (fun removed he => hacked ⟨removed, he⟩) hst
    have hcreated : (b.after (.send e) s').created = b.created := rfl
    have hstate : (b.after (.send e) s').state = s' := rfl
    refine ⟨⟨?_, ?_, ?_, ?_, ?_, h.pos, hbehind, ?_⟩, hwritten⟩
    · rw [hstate, hworld]
      exact h.sized
    · rw [hstate, hworld]
      exact h.counts
    · rw [hstate, hworld, hsent]
      exact h.folder
    · rw [hstate, hwritten]
      exact h.within
    · rw [hcreated, hstate, Stored, hwritten, hcallers, hworld]
      exact h.stored
    · rw [hcreated, hstate, hworld]
      exact h.unopened

/-! ## 6. Runs -/

/-- `Manager::new` takes the size of a folder that nothing has been sent from. -/
theorem Tallied.openManager (hP : P.Lawful) (h : Tallied b total) {names : List FileName}
    {files : Folder} {size : ℕ} {w : World} (hopened : b.opened = false)
    (hio : NoIoErrors b (.openManager names files size))
    (hreported : Reported b (.openManager names files size))
    (hw : managerStep P keys b.state.world (.openManager names files size) = some w) :
    Tallied { b with state := { b.state with world := w }, opened := true } total := by
  have hsized := sized_step hP h.sized hw
  have hcreated : ¬ 0 < b.created := by
    rw [(h.unopened hopened).2]
    exact lt_irrefl 0
  have htotal : size = total := by
    obtain ⟨size', hsize', hsum⟩ := h.folder
    have hsent : b.state.packfileBytesSent = 0 := hreported
    rw [hio.unique hsize']
    omega
  obtain ⟨hdisk, hcounts⟩ : w.disk = b.state.world.disk ∧ Counts w total := by
    cases stepped_of_managerStep hw with
    | opened names files size ix hs hn hf hnew =>
      obtain ⟨items, -, rfl⟩ := BlobIndex.new_ok hnew
      refine ⟨rfl, fun x hx => ?_, fun x hx => ?_, by simp, by simp⟩
      · exact Option.some.inj hx ▸ htotal
      · rw [← Option.some.inj hx]
        exact Nat.succ_pos _
    | notOpened names files size e hs hf hnew =>
      exact ⟨rfl, fun x hx => (by cases hx), fun x hx => (by cases hx), by simp, by simp⟩
    | moved s t c a pc hs hc hmove => exact absurd hmove.of_call (by simp)
  refine ⟨hsized, hcounts, ?_, h.within, fun hpos => absurd hpos hcreated, h.pos, ?_, ?_⟩
  · obtain ⟨size', hsize', hsum⟩ := h.folder
    exact ⟨size', hsize'.congr (congrArg Disk.packfiles hdisk), hsum⟩
  · exact ⟨h.behind.last, h.behind.passed, h.behind.loaded⟩
  · exact fun hnot => (by cases hnot)

/-- `send` reads the total before one has been stored. -/
theorem Tallied.beginSend (h : Tallied b total) (hreported : Reported b .beginSend) :
    Tallied { b with
      state := { b.state with sender := { b.state.sender with
        lastWritten := b.state.packfileBytesWritten
        lastMatched := b.state.storageRequestLastMatched } }
      sending := true } total := by
  have hzero : b.state.packfileBytesWritten = 0 := hreported
  refine { h with behind := { h.behind with last := h.within, passed := fun hpassed => ?_ } }
  exact hzero ▸ h.pos (Nat.lt_of_le_of_lt (Nat.zero_le _) hpassed)

/-- The tasks are disturbed by nothing that the condition allows. -/
theorem leftAlone_after (hP : P.Lawful) {e : Event} (h : LeftAlone b.state)
    (hunopened : b.opened = false → b.state.world.session = none) (hreported : Reported b e)
    (hst : step P keys b e = some b') : LeftAlone b'.state := by
  cases e with
  | openManager names files size =>
    obtain ⟨hopened, hst⟩ := Option.ite_none_left_eq_some.mp hst
    obtain ⟨w, hw, rfl⟩ := Option.map_eq_some_iff.mp hst
    have hnone : b.state.half = none := by
      by_contra hsome
      obtain ⟨x, hx, -⟩ := h.writing hsome
      cases hx.symm.trans (hunopened (eq_false_of_ne_true hopened))
    refine ⟨fun hsome => absurd hnone hsome, fun half hhalf => ?_, ?_⟩
    · cases hnone.symm.trans hhalf
    · intro written matched id size hpc
      obtain ⟨content, hcontent, hlen⟩ := h.acking written matched id size hpc
      exact ⟨content, (gains_of_managerStep hw).kept hcontent, hlen⟩
  | beginSend =>
    obtain ⟨-, hst⟩ := Option.ite_none_left_eq_some.mp hst
    obtain rfl := Option.some.inj hst
    exact { h with }
  | act a =>
    obtain ⟨-, hst⟩ := Option.ite_none_left_eq_some.mp hst
    obtain ⟨s', hs', rfl⟩ := Option.map_eq_some_iff.mp hst
    refine leftAlone_step hP h ?_ hs'
    cases a with
    | send e =>
      cases e with
      | stat id => exact hreported
      | check | subscribe | load | connect | acked | fails | listed | resumeCheck | resume | finish
        | index => trivial
    | add | call | grow | returned | block | flush | complete | matched => trivial

/-- A packfile that is being written is not counted. -/
theorem Tallied.grow (h : Tallied b total) {w : World} {id : PackfileId} {n : ℕ}
    (hst : b.state.grow w id n = some s') : Tallied { b with state := s' } total ∧
      s'.packfileBytesWritten = b.state.packfileBytesWritten := by
  obtain ⟨-, rfl⟩ := State.grow_eq_some hst
  exact ⟨h.moves h.sized (.refl h.counts) rfl rfl h.within (fun hs => hs) fun hopened =>
    (h.unopened hopened).1, rfl⟩

/-- Every step keeps the totals in agreement, and what is stored does not decrease. -/
theorem tallied_step (hP : P.Lawful) {e : Event} (h : Tallied b total) (hhalf : LeftAlone b.state)
    (hio : NoIoErrors b e) (hreported : Reported b e) (hst : step P keys b e = some b') :
    (∃ total', Tallied b' total') ∧
      b.state.packfileBytesWritten ≤ b'.state.packfileBytesWritten := by
  cases e with
  | openManager names files size =>
    obtain ⟨hopened, hst⟩ := Option.ite_none_left_eq_some.mp hst
    obtain ⟨w, hw, rfl⟩ := Option.map_eq_some_iff.mp hst
    exact ⟨⟨total, h.openManager hP (eq_false_of_ne_true hopened) hio hreported hw⟩, le_refl _⟩
  | beginSend =>
    obtain ⟨-, hst⟩ := Option.ite_none_left_eq_some.mp hst
    obtain rfl := Option.some.inj hst
    exact ⟨⟨total, h.beginSend hreported⟩, le_refl _⟩
  | act a =>
    obtain ⟨-, hst⟩ := Option.ite_none_left_eq_some.mp hst
    obtain ⟨s', hs', rfl⟩ := Option.map_eq_some_iff.mp hst
    cases a with
    | add t kind data =>
      have hm := managed_add hs'
      exact ⟨h.managed hP rfl hm hio hreported, hm.written.ge⟩
    | call t e =>
      obtain ⟨i, hm⟩ := managed_call hhalf.notDeleted hs'
      exact ⟨h.managed hP rfl hm hio hreported, hm.written.ge⟩
    | grow t id length =>
      cases moved_of_step hs' with
      | grows _ _ _ _ _ _ _ _ _ hgrow =>
        obtain ⟨htallied, heq⟩ := h.grow hgrow
        exact ⟨⟨total, htallied⟩, heq.ge⟩
    | returned t =>
      obtain ⟨htallied, hle⟩ := h.returned hreported hs'
      exact ⟨⟨total, htallied⟩, hle⟩
    | block t e =>
      obtain ⟨htallied, hle⟩ := h.blocked hs'
      exact ⟨⟨total, htallied⟩, hle⟩
    | flush e =>
      obtain ⟨id, length, rfl⟩ | ⟨m, hm⟩ := managed_flush hhalf.notDeleted hs'
      · cases moved_of_step hs' with
        | flushGrows _ _ _ _ _ hgrow =>
          obtain ⟨htallied, heq⟩ := h.grow hgrow
          exact ⟨⟨total, htallied⟩, heq.ge⟩
      · exact ⟨h.managed hP rfl hm hio hreported, hm.written.ge⟩
    | complete =>
      cases moved_of_step hs' with
      | completes =>
        exact ⟨⟨total, h.moves h.sized (.refl h.counts) rfl rfl h.within id
          fun hopened => (h.unopened hopened).1⟩, le_refl _⟩
    | matched time =>
      cases moved_of_step hs' with
      | learns =>
        exact ⟨⟨total, h.moves h.sized (.refl h.counts) rfl rfl h.within id
          fun hopened => (h.unopened hopened).1⟩, le_refl _⟩
    | send e =>
      obtain ⟨htallied, heq⟩ := h.send hhalf hio hs'
      exact ⟨⟨total, htallied⟩, heq.ge⟩

/-- In a run without I/O errors in which every packfile is reported and sent in whole, what is
available is what lies in the folder, `send` does not miss a packfile, and what is stored does not
decrease. -/
theorem accounts_agree (hP : P.Lawful) {k left : ℕ} {disk : Disk} (hleft : disk.Occupies left)
    (h : Reach (step P keys) (fun b e => NoIoErrors b e ∧ Reported b e) (begin k disk left) b) :
    Accurate b ∧ ∀ e b', NoIoErrors b e → Reported b e → step P keys b e = some b' →
      b.state.packfileBytesWritten ≤ b'.state.packfileBytesWritten := by
  obtain ⟨⟨total, htallied⟩, hhalf⟩ : (∃ total, Tallied b total) ∧ LeftAlone b.state := by
    refine h.invariant (I := fun b => (∃ total, Tallied b total) ∧ LeftAlone b.state)
      ⟨⟨left, tallied_begin hleft⟩, leftAlone_begin⟩ ?_
    rintro b e b' ⟨⟨total, htallied⟩, hhalf⟩ ⟨hio, hreported⟩ hst
    exact ⟨(tallied_step hP htallied hhalf hio hreported hst).1,
      leftAlone_after hP hhalf (fun hopened => (htallied.unopened hopened).1) hreported hst⟩
  exact ⟨htallied.accurate hhalf, fun e b' hio hreported hst =>
    (tallied_step hP htallied hhalf hio hreported hst).2⟩

/-- Every task may go on at any time. -/
theorem step_act (hsend : isSend a = false) (hst : Buffering.step P keys b.state a = some s') :
    step P keys b (.act a) = some (b.after a s') := by
  simp only [step, hsend, Bool.false_and, Bool.false_eq_true, if_false, hst, Option.map_some]

/-- What a task does up to a round of `write_packfiles` creates and reports nothing. -/
theorem reach_of_queues (h : Reach (Buffering.step P keys) Queues s s') :
    Reach (step P keys) (fun b e => NoIoErrors b e ∧ Reported b e) { b with state := s }
      { b with state := s' } := by
  refine h.map (fun s => { b with state := s }) Event.act fun s a s' ha hst => ?_
  cases a with
  | add t kind data =>
    exact ⟨⟨trivial, trivial⟩, step_act (b := { b with state := s }) rfl hst⟩
  | call t e =>
    cases e with
    | write io => cases ha
    | check | enqueue | trigger | lock | unlock =>
      exact ⟨⟨trivial, trivial⟩, step_act (b := { b with state := s }) rfl hst⟩
  | grow | returned | block | flush | complete | matched | send => cases ha

end

/-- A backup that has created so many packfiles before `send` begins. -/
def packed (s : State) (created : ℕ) : Backup := ⟨s, true, false, created, 0, 0⟩

/-- A chunk is packed, and its packfile reported. -/
theorem accounts_agree_chunk : ∃ b : Backup, b.created = 1 ∧ Quiet b.state ∧
    b.state.availablePackfileBytes = chunkPackfileSize ∧ Accurate b := by
  obtain ⟨data, blob, h⟩ := exists_chunk 0
  have hready : Buffering.Ready 0 .empty [] := ⟨fun _ hcall => (by cases hcall), fun _ _ _ => rfl⟩
  obtain ⟨content, writers, hlen, hwrite⟩ : ∃ content writers, content.length = chunkPackfileSize ∧
      Buffering.step .transparent sampleKeys
        (Buffering.adding .empty [] 0 data (.writing false) [blob] 0 0 [] [])
        (.call 0 (.write (chunkIo 0)))
          = some (Buffering.added (Disk.empty.put (chunkId 0) content) [] 0 data
            (.writing false) 0 0 (.adding 0 true) [(chunkId 0, chunkPackfileSize)] writers) :=
    h.write (by decide) rfl
  obtain ⟨ok, hok⟩ : ∃ pc, pc = AddPc.returned (.ok (some chunkPackfileSize)) := ⟨_, rfl⟩
  obtain ⟨s, hs⟩ : ∃ s : AddPc → ℕ → Caller → State, s = fun pc written caller =>
      Buffering.added (Disk.empty.put (chunkId 0) content) [] 0 data pc written 0 caller
        [(chunkId 0, chunkPackfileSize)] writers := ⟨_, rfl⟩
  have hopen : step .transparent sampleKeys (begin 1 .empty 0) (.openManager [] [] 0)
      = some (packed (Buffering.packing .empty [] [] 0 0 0 .idle [] []) 0) := rfl
  have hqueued : Reach (step .transparent sampleKeys) (fun b e => NoIoErrors b e ∧ Reported b e)
      (packed (Buffering.packing .empty [] [] 0 0 0 .idle [] []) 0)
      (packed (Buffering.adding .empty [] 0 data (.writing false) [blob] 0 0 [] []) 0) :=
    reach_of_queues (b := packed (Buffering.packing .empty [] [] 0 0 0 .idle [] []) 0)
      (h.queue (by decide) hready)
  have hcreated : (Buffering.adding .empty [] 0 data (.writing false) [blob] 0 0 [] []).created
      (s (.writing false) 0 (.adding 0 true)).world (chunkId 0) = some chunkPackfileSize := by
    rw [hs]
    exact State.created_eq_some.mpr
      ⟨rfl, content, Function.update_self (chunkId 0) _ Disk.empty.packfiles, hlen⟩
  have hwritten : step .transparent sampleKeys
      (packed (Buffering.adding .empty [] 0 data (.writing false) [blob] 0 0 [] []) 0)
      (.act (.call 0 (.write (chunkIo 0))))
        = some (packed (s (.writing false) 0 (.adding 0 true)) 1) := by
    rw [step_act rfl hwrite]
    rw [hs] at hcreated ⊢
    exact congrArg some (after_of_some (b := packed _ 0) rfl rfl hcreated)
  have hunlocked : step .transparent sampleKeys (packed (s (.writing false) 0 (.adding 0 true)) 1)
      (.act (.call 0 .unlock))
        = some (packed (s ok 0 (.adding 0 true)) 1) := by
    rw [hs, hok]
    exact step_act (b := packed _ 1) rfl added_unlock
  have hreturned : step .transparent sampleKeys (packed (s ok 0 (.adding 0 true)) 1)
      (.act (.returned 0)) = some (packed (s ok chunkPackfileSize .idle) 1) := by
    rw [hs, hok]
    exact step_act (b := packed _ 1) rfl added_returned
  have hlimit : Reported
      (packed (Buffering.adding .empty [] 0 data (.writing false) [blob] 0 0 [] []) 0)
      (.act (.call 0 (.write (chunkIo 0)))) := by
    intro x hx _
    obtain rfl := Option.some.inj hx
    change 0 * chunkPackfileSize ≤ maxPackfileLocalBufferSize
    decide
  have horder : Reported (packed (s ok 0 (.adding 0 true)) 1) (.act (.returned 0)) := by
    rw [hs]
    exact fun total _ => Nat.zero_le total
  have hreach : Reach (step .transparent sampleKeys) (fun b e => NoIoErrors b e ∧ Reported b e)
      (begin 1 .empty 0) (packed (s ok chunkPackfileSize .idle) 1) := by
    refine .head (.openManager [] [] 0) ⟨Disk.Occupies.empty, rfl⟩ hopen (hqueued.trans ?_)
    refine .head (.act (.call 0 (.write (chunkIo 0)))) ⟨⟨rfl, rfl, fun _ => rfl⟩, hlimit⟩
      hwritten ?_
    refine .head (.act (.call 0 .unlock)) ⟨trivial, trivial⟩ hunlocked ?_
    exact .head (.act (.returned 0)) ⟨trivial, horder⟩ hreturned .refl
  refine ⟨_, rfl, ?_, ?_,
    (accounts_agree Primitives.transparent_lawful Disk.Occupies.empty hreach).1⟩
  · rw [hs]
    refine ⟨fun c hc => ?_, fun x hx => ?_, fun _ _ _ _ hpc => (by cases hpc)⟩
    · rw [List.mem_singleton.mp hc]
      simp
    · exact (Option.some.inj hx) ▸ rfl
  · rw [hs]
    rfl

/-- The only packfile is that of the flush: nothing is available, and `send` sees nothing new. -/
theorem flush_unreported : ∃ b, Reach (step .transparent sampleKeys) NoIoErrors
    (begin 1 .empty 0) b ∧ Quiet b.state ∧ b.passed < b.created ∧
    ¬ Occupies b.state b.state.availablePackfileBytes ∧
    ¬ b.state.sender.lastWritten < b.state.packfileBytesWritten ∧ ¬ Accurate b := by
  obtain ⟨b, hreach, hcallers, hsession, hpassed, hsender, hwritten, hpackfile⟩ : ∃ b,
      Reach (step .transparent sampleKeys) NoIoErrors (begin 1 .empty 0) b ∧
      b.state.callers = [.idle] ∧ b.state.world.session = none ∧ b.passed < b.created ∧
      b.state.sender = ⟨.top, false, 0, 0, false⟩ ∧ b.state.packfileBytesWritten = 0 ∧
      0 < (b.state.world.disk.packfiles (.fill 9)).elim 0 List.length :=
    ⟨_, .head (.openManager [] [] 0) Disk.Occupies.empty rfl <|
      .head .beginSend trivial rfl <|
      .head (.act (.add 0 .fileChunk [1, 2, 3])) trivial rfl <|
      .head (.act (.call 0 (.check (some (.fill 7))))) trivial rfl <|
      .head (.act (.call 0 .enqueue)) trivial rfl <|
      .head (.act (.call 0 .trigger)) trivial rfl <|
      .head (.act (.returned 0)) trivial rfl <|
      .head (.act (.flush .begin)) trivial rfl <|
      .head (.act (.flush (.write ⟨.fill 9, .ok, fun _ => .ok⟩))) ⟨rfl, rfl, fun _ => rfl⟩ rfl <|
      .head (.act (.flush (.index .ok))) trivial rfl .refl, rfl, rfl, by decide, rfl, rfl,
      by decide⟩
  have hquiet : Quiet b.state := by
    refine ⟨by rw [hcallers]; simp, fun x hx => ?_, by rw [hsender]; simp⟩
    cases hsession.symm.trans hx
  have htrigger : ¬ b.state.sender.lastWritten < b.state.packfileBytesWritten := by
    rw [hsender, hwritten]
    exact lt_irrefl 0
  refine ⟨b, hreach, hquiet, hpassed, fun hsize => ?_, htrigger, fun h => ?_⟩
  · rw [State.availablePackfileBytes, hwritten, Nat.zero_sub] at hsize
    obtain ⟨whole, hwhole, hsum⟩ := hsize
    cases hcontent : b.state.world.disk.packfiles (.fill 9) with
    | none => simp [hcontent] at hpackfile
    | some content =>
      have hle := hwhole.le hcontent
      simp only [hcontent, Option.elim] at hpackfile
      omega
  · exact htrigger (h.trigger hquiet hpassed)

end Backuwup.Client.Accounting
