/-
# The packfile that is being written (`pack.rs`, `send.rs`)

`write_all` runs under both mutexes, in a call of `add_blob` or in `flush`, and the blobs that it
writes leave the queue only with the end of its round.  So while a packfile is half written there
is a call under way (`Writing`).

`send` looks at the folder without a mutex.  If it takes the size of a packfile only when all of it
is there, then it never deletes one that is still being written, and what it has taken the size of
stays as it is until the acknowledgement comes (`LeftAlone`).
-/
import Backuwup.Client.Orchestrator.LocalBuffer

namespace Backuwup.Client.Buffering

/-- A call of `add_blob` or of `flush` is in `write_packfiles`, with a blob in the queue. -/
def Writing (s : State) : Prop :=
  ∃ x, s.world.session = some x ∧ x.manager.blobs ≠ [] ∧ (x.flushing = true ∨
    ∃ (t i : ℕ) (wrote : Bool) (c : AddCall), s.callers[t]? = some (.adding i wrote) ∧
      s.world.calls[i]? = some c ∧ c.pc.isWriting = true)

/-- `send` takes the size of a packfile when it is in the folder in whole. -/
def TakesWhole (s : State) : Action → Prop
  | .send (.stat id size) => ∃ content, s.world.disk.packfiles id = some content ∧
    content.length = size
  | _ => True

/-- The packfile that is being written is new and has not been deleted, and the one that `send`
waits for is in the folder in whole. -/
structure LeftAlone (s : State) : Prop where
  writing : s.half ≠ none → Writing s
  half : ∀ h ∈ s.half, h.deleted = false ∧ s.world.disk.packfiles h.id = none
  acking : ∀ (written matched : ℕ) (id : PackfileId) (size : ℕ),
    s.sender.pc = .acking written matched id size →
    ∃ content, s.world.disk.packfiles id = some content ∧ content.length = size

section

variable {P : Primitives} {keys : KeyManager} {s s' : State} {a : Action} {m : ManagerAction}
  {w : World} {id : PackfileId} {content : Bytes} {n t : ℕ}

/-! ## 1. The folder after a round -/

theorem record_world (h : s.half.any Half.deleted = false) : (s.record t w id).world = w := by
  cases hcreated : s.created w id with
  | none => rw [record_of_none hcreated, State.settle]
  | some n => rw [record_of_some hcreated h, State.setFiles, State.settle]

/-! ## 2. Who writes it -/

/-- A round that creates a packfile has taken it from the queue. -/
theorem blobs_of_created (hP : P.Lawful) {x x' : Manager} {disk : Disk} {io : PackfileIo}
    {r : Except PackfileError Bool}
    (h : x.writePackfile P keys s.world.disk io = some (x', disk, r)) (hdisk : w.disk = disk)
    (hcreated : s.created w io.id = some n) : x.blobs ≠ [] := by
  intro hnil
  exact (creates_of_created hP h hdisk hcreated).new (by rw [hnil]; rfl)

/-- The session, its queue and the calls that write are as before. -/
theorem Writing.of_eq (h : Writing s) (hsession : s'.world.session = s.world.session)
    (hcallers : ∀ (u i : ℕ) (wrote : Bool), s.callers[u]? = some (.adding i wrote) →
      (∀ c, s.world.calls[i]? = some c → c.pc.isWriting = true →
        s'.callers[u]? = some (.adding i wrote) ∧ s'.world.calls[i]? = some c)) : Writing s' := by
  obtain ⟨x, hx, hblobs, hwho⟩ := h
  refine ⟨x, hsession.trans hx, hblobs, hwho.imp_right ?_⟩
  rintro ⟨u, i, wrote, c, hu, hc, hwriting⟩
  obtain ⟨hu', hc'⟩ := hcallers u i wrote hu c hc hwriting
  exact ⟨u, i, wrote, c, hu', hc', hwriting⟩

/-- A step of a call that writes nothing keeps what is in the queue. -/
theorem queue_of_call {x : Session} {e : CallEvent} {i : ℕ} (hne : ∀ io, e ≠ .write io)
    (hw : managerStep P keys s.world (e.toAction i) = some w) (hx : s.world.session = some x)
    (hblobs : x.manager.blobs ≠ []) :
    ∃ y, w.session = some y ∧ y.manager.blobs ≠ [] ∧ y.flushing = x.flushing := by
  cases e with
  | write io => exact absurd rfl (hne io)
  | enqueue =>
    cases stepped_of_managerStep hw with
    | moved => exact ⟨x, hx, hblobs, rfl⟩
    | enqueued y j c blob hy =>
      obtain rfl := Option.some.inj (hx.symm.trans hy)
      exact ⟨_, rfl, by simp, rfl⟩
  | check | trigger | lock | unlock =>
    cases stepped_of_managerStep hw with
    | moved => exact ⟨x, hx, hblobs, rfl⟩

/-- The call that writes goes on only when the queue is empty. -/
theorem not_writing_of_call {x : Session} {c : AddCall} {e : CallEvent} {i : ℕ}
    (hne : ∀ io, e ≠ .write io) (hw : managerStep P keys s.world (e.toAction i) = some w)
    (hx : s.world.session = some x) (hblobs : x.manager.blobs ≠ [])
    (hc : s.world.calls[i]? = some c) : c.pc.isWriting = false := by
  cases e with
  | write io => exact absurd rfl (hne io)
  | unlock =>
    obtain ⟨y, d, hy, hd, hstep⟩ := inCall_eq_some hw
    obtain rfl := Option.some.inj (hx.symm.trans hy)
    split at hstep
    · exact absurd (Option.ite_none_right_eq_some.mp hstep).1 hblobs
    · cases hstep
  | check | enqueue | trigger | lock =>
    obtain ⟨y, d, hy, hd, hstep⟩ := inCall_eq_some hw
    obtain rfl := Option.some.inj (hc.symm.trans hd)
    split at hstep
    · rename_i hpc
      rw [hpc]
      rfl
    · cases hstep

theorem Writing.call (h : Writing s) {e : CallEvent} {i : ℕ} (hne : ∀ io, e ≠ .write io)
    (hw : managerStep P keys s.world (e.toAction i) = some w) :
    Writing { s with world := w } := by
  obtain ⟨x, hx, hblobs, hwho⟩ := h
  obtain ⟨y, hy, hblobs', hflushing⟩ := queue_of_call hne hw hx hblobs
  refine ⟨y, hy, hblobs', hwho.imp (fun h => hflushing.trans h) ?_⟩
  rintro ⟨u, j, wrote, c, hu, hc, hwriting⟩
  refine ⟨u, j, wrote, c, hu, ?_, hwriting⟩
  cases callMove_of_managerStep hw with
  | writes io => exact absurd rfl (hne io)
  | moves e call pc hcall hworld =>
    rw [hworld]
    refine (List.getElem?_set_ne ?_).trans hc
    rintro rfl
    cases hwriting.symm.trans (not_writing_of_call hne hw hx hblobs hc)

/-- A task whose call does not write does something else. -/
theorem Writing.setCaller (h : Writing s) {c : Caller} (ht : s.callers[t]? = some c)
    (hother : ∀ i wrote, c = .adding i wrote → ∃ call, s.world.calls[i]? = some call ∧
      call.pc.isWriting = false) (c' : Caller) : Writing (s.setCaller t c') := by
  refine h.of_eq rfl fun u i wrote hu call hcall hwriting => ⟨?_, hcall⟩
  rw [getElem?_setCaller ht, if_neg]
  · exact hu
  · rintro rfl
    obtain ⟨call', hcall', hnot⟩ := hother i wrote (Option.some.inj (ht.symm.trans hu))
    obtain rfl := Option.some.inj (hcall.symm.trans hcall')
    cases hwriting.symm.trans hnot

/-- Who has written the first bytes is in `write_packfiles`. -/
theorem writing_of_grow (hP : P.Lawful) {i : ℕ} {wrote : Bool} {io : PackfileIo}
    (ht : s.callers[t]? = some (.adding i wrote))
    (hw : managerStep P keys s.world (.write i io) = some w)
    (hcreated : s.created w io.id = some n) : Writing s := by
  cases callMove_of_managerStep (e := .write io) hw with
  | moves _ _ _ _ _ hne => exact absurd rfl (hne io)
  | writes io x c exceeded y disk r pc hx hc hpc hwrite _ hdisk =>
    exact ⟨x, hx, blobs_of_created hP hwrite hdisk hcreated, Or.inr ⟨t, i, wrote, c, ht, hc, by
      rw [hpc]
      rfl⟩⟩

theorem writing_of_flushGrow (hP : P.Lawful) {io : PackfileIo}
    (hw : managerStep P keys s.world (.flushWrite io) = some w)
    (hcreated : s.created w io.id = some n) : Writing s := by
  cases stepped_of_managerStep hw with
  | flushWrote x io y disk e hx hflushing hwrite =>
    exact ⟨x, hx, blobs_of_created hP hwrite rfl hcreated, Or.inl hflushing⟩
  | flushFailed x io y disk e hx hflushing hwrite =>
    exact ⟨x, hx, blobs_of_created hP hwrite rfl hcreated, Or.inl hflushing⟩
  | moved _ _ _ _ _ _ _ hmove => exact absurd hmove.of_call (by simp)

/-! ## 3. The steps -/

/-- The packfile, the folder and `send` are as before, and who writes goes on. -/
theorem LeftAlone.of_eq (h : LeftAlone s) (hhalf : s'.half = s.half)
    (hsender : s'.sender = s.sender) (hdisk : s'.world.disk.packfiles = s.world.disk.packfiles)
    (hwriting : Writing s → Writing s') : LeftAlone s' where
  writing := by
    rw [hhalf]
    exact fun hne => hwriting (h.writing hne)
  half := by
    rw [hhalf, hdisk]
    exact h.half
  acking := by
    rw [hsender, hdisk]
    exact h.acking

theorem LeftAlone.notDeleted (h : LeftAlone s) : s.half.any Half.deleted = false := by
  cases hold : s.half with
  | none => rfl
  | some half => exact (h.half half hold).1

/-- A round is over. -/
theorem LeftAlone.wrote (h : LeftAlone s) (hw : managerStep P keys s.world m = some w)
    (hhalf : s'.half = none) (hsender : s'.sender = s.sender)
    (hdisk : s'.world.disk = (s.record t w id).world.disk) : LeftAlone s' := by
  rw [record_world h.notDeleted] at hdisk
  refine ⟨fun hne => absurd hhalf hne, fun half hsome => ?_, fun written matched i size hpc => ?_⟩
  · cases hhalf.symm.trans hsome
  · rw [hsender] at hpc
    obtain ⟨content, hcontent, hlen⟩ := h.acking written matched i size hpc
    rw [hdisk]
    exact ⟨content, (gains_of_managerStep hw).kept hcontent, hlen⟩

theorem LeftAlone.grow (h : LeftAlone s) (hst : s.grow w id n = some s')
    (hwriting : (∃ size, s.created w id = some size) → Writing s) : LeftAlone s' := by
  obtain ⟨⟨size, hcreated, -⟩, rfl⟩ := State.grow_eq_some hst
  refine ⟨fun _ => hwriting ⟨size, hcreated⟩, fun half hhalf => ?_, h.acking⟩
  obtain rfl := Option.some.inj hhalf
  exact ⟨h.notDeleted, (State.created_eq_some.mp hcreated).1⟩

/-- `send` deletes the packfile that it has waited for. -/
theorem LeftAlone.remove (h : LeftAlone s) {written matched size : ℕ}
    (hpc : s.sender.pc = .acking written matched id size) (sent : ℕ) :
    LeftAlone (({ s with packfileBytesSent := sent }.setSender
      (.sending written matched)).removeFile id) := by
  obtain ⟨content, hcontent, -⟩ := h.acking written matched id size hpc
  refine ⟨fun hne => ?_, fun half hhalf => ?_, fun _ _ _ _ hnot => (by cases hnot)⟩
  · refine h.writing fun hnone => hne ?_
    change s.half.map (Half.delete id) = none
    rw [hnone]
    rfl
  · obtain ⟨old, hold, rfl⟩ := Option.map_eq_some_iff.mp hhalf
    obtain ⟨hdeleted, hnone⟩ := h.half old hold
    have hne : old.id ≠ id := by
      rintro rfl
      cases hnone.symm.trans hcontent
    rw [Half.delete, if_neg hne]
    exact ⟨hdeleted, (Function.update_of_ne hne _ _).trans hnone⟩

theorem LeftAlone.send (h : LeftAlone s) {e : SendEvent} (ha : TakesWhole s (.send e))
    (hst : sendStep s e = some s') : LeftAlone s' := by
  have hkeeps := sendKeeps_of_sendStep hst
  cases sends_of_sendStep hst with
  | acked written matched i size hpc => exact h.remove hpc _
  | stats written matched i size hpc =>
    refine { h with acking := fun written' matched' i' size' hacking => ?_ }
    obtain ⟨-, -, rfl, rfl⟩ := SendPc.acking.inj hacking
    exact ha
  | rests | finishes =>
    refine { h with acking := fun _ _ _ _ hacking => ?_ }
    simp only [Sender.rest] at hacking
    split at hacking <;> cases hacking
  | resumed r p =>
    refine { h with acking := fun _ _ _ _ hacking => ?_ }
    simp only [State.setSender] at hacking
    split at hacking <;> cases hacking
  | pauses | checks | subscribes | loads | begins | unconnected | keeps | fails | listed
    | underflows | resumes | goesOn | indexed | indexFails =>
    exact { h with acking := fun _ _ _ _ hacking => (by cases hacking) }

/-- Every step leaves the packfile to its writer. -/
theorem leftAlone_step (hP : P.Lawful) (h : LeftAlone s) (ha : TakesWhole s a)
    (hst : step P keys s a = some s') : LeftAlone s' := by
  cases moved_of_step hst with
  | adds t kind data w call ht hw hcalls =>
    cases stepped_of_managerStep hw with
    | added x _ pc hx =>
      refine h.of_eq rfl rfl rfl fun hwriting => ?_
      have hadded : Writing { s with world := { s.world with
          calls := s.world.calls ++ [⟨⟨P.hash data, kind, data⟩, pc⟩] } } := by
        refine hwriting.of_eq rfl fun u i wrote hu c hc _ => ⟨hu, ?_⟩
        exact (List.getElem?_append_left (List.getElem?_eq_some_iff.mp hc).1).trans hc
      exact hadded.setCaller ht (by simp) _
    | moved _ _ _ _ _ _ _ hmove => exact absurd hmove.of_call (by simp)
  | calls t e i wrote w ht hw hne =>
    refine h.of_eq rfl rfl ?_ fun hwriting => hwriting.call hne hw
    cases callMove_of_managerStep hw with
    | writes io => exact absurd rfl (hne io)
    | moves e call pc hcall hworld => rw [hworld]
  | writes t io i wrote w ht hw => exact h.wrote hw record_half record_sender rfl
  | grows t id length i wrote w s' ht hw hgrow =>
    exact h.grow hgrow fun ⟨_, hcreated⟩ => writing_of_grow hP ht hw hcreated
  | returnsOk t i wrote call written ht hcall hpc =>
    refine h.of_eq rfl rfl rfl fun hwriting => ?_
    have hstored : Writing { s with
      packfileBytesWritten := written.getD s.packfileBytesWritten } := hwriting
    refine hstored.setCaller ht (fun j wrote' heq => ⟨call, ?_, by rw [hpc]; rfl⟩) _
    obtain ⟨rfl, -⟩ := Caller.adding.inj heq
    exact hcall
  | returnsError t i wrote call x ht hcall hpc =>
    refine h.of_eq rfl rfl rfl fun hwriting => ?_
    refine hwriting.setCaller ht (fun j wrote' heq => ⟨call, ?_, by rw [hpc]; rfl⟩) _
    obtain ⟨rfl, -⟩ := Caller.adding.inj heq
    exact hcall
  | blocks t e p ht hp =>
    refine h.of_eq rfl rfl rfl fun hwriting => ?_
    have hmoved : Writing { s with pause := p } := hwriting
    exact hmoved.setCaller ht (by simp) _
  | flushes w hall hw =>
    cases stepped_of_managerStep hw with
    | flushes x hx =>
      refine h.of_eq rfl rfl rfl fun hwriting => ?_
      obtain ⟨y, hy, hblobs, -⟩ := hwriting
      obtain rfl := Option.some.inj (hx.symm.trans hy)
      exact ⟨_, rfl, hblobs, Or.inl rfl⟩
    | moved _ _ _ _ _ _ _ hmove => exact absurd hmove.of_call (by simp)
  | flushGrows id length w s' hw hgrow =>
    exact h.grow hgrow fun ⟨_, hcreated⟩ => writing_of_flushGrow hP hw hcreated
  | flushWrites io w hw => exact h.wrote hw record_half record_sender rfl
  | flushIndexes io w hw =>
    cases stepped_of_managerStep hw with
    | flushedIndex x io ix folder r hx _ hnil =>
      refine h.of_eq rfl rfl rfl fun hwriting => ?_
      obtain ⟨y, hy, hblobs, -⟩ := hwriting
      obtain rfl := Option.some.inj (hx.symm.trans hy)
      exact absurd hnil hblobs
    | moved _ _ _ _ _ _ _ hmove => exact absurd hmove.of_call (by simp)
  | completes | learns => exact h.of_eq rfl rfl rfl id
  | sends e s' hst => exact h.send ha hst

end

end Backuwup.Client.Buffering
