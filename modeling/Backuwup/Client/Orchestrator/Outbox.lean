/-
# The folder of packfiles as an outbox

The sending of packfiles is modelled three times: with every write of a packfile
(`SendPackfiles.lean`), with the counters and the pausing (`Running.lean`), and with the index, the
report and any number of backups, where a packfile is written in one step (`Upload.lean`).  What
all three do to the folder and to the peers is what an `Outbox` does.

* `runs_of_packfiles`: the finest of them, as long as `send` reads whole packfiles only
  (`ReadsWhole`).  So the packfiles that are written in one step are those whose `write_all` has
  returned.
* `runs_of_running`: the model with the counters, under the same condition (`TakesWhole`);
  `packfile_bytes_sent` is the size of what has been acknowledged.
* `runs_of_upload`: the one with steps for whole packfiles, without a condition.

Without the condition the first two are no outbox: what is acknowledged may be a part of what is
taken out (`partial_packfile_deleted`).
-/
import Backuwup.Client.Orchestrator.HalfWritten
import Backuwup.Client.Orchestrator.Reported
import Backuwup.Client.SendPackfiles
import Backuwup.Lib.Outbox
import Backuwup.Lib.Simulation

namespace Backuwup.Client

open Transition

/-! ## 1. Every write -/

/-- The content of the packfile of this id, if its `write_all` has returned. -/
def PackfileFolder.whole (s : PackfileFolder) (id : PackfileId) : Option Bytes :=
  (s.files.find? fun f => f.id = id && f.whole).map LocalPackfile.content

def PackfileFolder.outbox (s : PackfileFolder) : Outbox PackfileId Bytes :=
  ⟨s.whole, s.acked.reverse⟩

section

variable {s s' : PackfileFolder} {id : PackfileId} {content : Bytes}

theorem Intact.whole_eq_some (h : Intact s) :
    s.whole id = some content ↔ ⟨id, content, true⟩ ∈ s.files := by
  rw [PackfileFolder.whole, Option.map_eq_some_iff]
  constructor
  · rintro ⟨⟨id', content', whole⟩, hfind, rfl⟩
    have hf := List.find?_some hfind
    simp only [Bool.and_eq_true, decide_eq_true_eq] at hf
    obtain ⟨rfl, rfl⟩ := hf
    exact List.mem_of_find?_eq_some hfind
  · intro hmem
    cases hfind : s.files.find? fun f => f.id = id && f.whole with
    | none => simpa using List.find?_eq_none.mp hfind _ hmem
    | some f =>
      have hf := List.find?_some hfind
      simp only [Bool.and_eq_true, decide_eq_true_eq] at hf
      exact ⟨f, rfl, congrArg _ (h.eq_of_id (List.mem_of_find?_eq_some hfind) hmem hf.1)⟩

/-- The same packfiles are whole. -/
theorem Intact.outbox_congr (h : Intact s) (h' : Intact s') (hacked : s'.acked = s.acked)
    (hfiles : ∀ id content, (⟨id, content, true⟩ : LocalPackfile) ∈ s'.files
      ↔ (⟨id, content, true⟩ : LocalPackfile) ∈ s.files) : s'.outbox = s.outbox := by
  have hwhole : s'.whole = s.whole := by
    funext id
    refine Option.ext fun content => ?_
    rw [h'.whole_eq_some, h.whole_eq_some]
    exact hfiles id content
  rw [PackfileFolder.outbox, PackfileFolder.outbox, hwhole, hacked]

/-- Changing one packfile that is not whole, and stays so, changes no whole one. -/
theorem mem_map_whole {files : List LocalPackfile} {g : LocalPackfile → LocalPackfile}
    (hg : ∀ f, f.id = id → f ∈ files → f.whole = false ∧ (g f).whole = false)
    {id' : PackfileId} {content' : Bytes} :
    (⟨id', content', true⟩ : LocalPackfile) ∈ (files.map fun f => if f.id = id then g f else f)
      ↔ (⟨id', content', true⟩ : LocalPackfile) ∈ files := by
  constructor
  · intro hmem
    obtain ⟨f, hf, heq⟩ := List.mem_map.mp hmem
    by_cases hid : f.id = id
    · rw [if_pos hid] at heq
      have hnot := (hg f hid hf).2
      rw [heq] at hnot
      cases hnot
    · rw [if_neg hid] at heq
      exact heq ▸ hf
  · intro hmem
    refine mem_map_of_id_ne hmem ?_
    intro hid
    cases (hg _ hid hmem).1

/-- The packfile that is being written is the only one of its id. -/
theorem Intact.not_whole_of_writing (h : Intact s) {buffer rest : Bytes}
    (hw : s.writer = .writing id buffer rest) {f : LocalPackfile} (hid : f.id = id)
    (hf : f ∈ s.files) : f.whole = false := by
  obtain ⟨-, content, hmem, -⟩ := h.writing _ _ _ hw
  exact h.eq_of_id hf hmem hid ▸ rfl

/-- `write_all` has returned: the packfile is put into the outbox. -/
theorem Intact.runs_writeDone (h : Intact s) {buffer : Bytes}
    (hw : s.writer = .writing id buffer []) : s.outbox.Runs ({ s with
      files := PackfileFolder.markWhole s.files id
      writer := .written id buffer } : PackfileFolder).outbox := by
  have h' := h.writeDone hw
  obtain ⟨-, content, hmem, hcontent⟩ := h.writing _ _ _ hw
  rw [List.append_nil] at hcontent
  subst hcontent
  have hfree : s.whole id = none := by
    refine Option.eq_none_iff_forall_ne_some.mpr fun content' hsome => ?_
    cases h.not_whole_of_writing hw rfl (h.whole_eq_some.mp hsome)
  have hwhole : ({ s with
      files := PackfileFolder.markWhole s.files id
      writer := .written id content } : PackfileFolder).whole
      = Function.update s.whole id (some content) := by
    funext id'
    by_cases hid : id' = id
    · subst hid
      rw [Function.update_self, h'.whole_eq_some]
      exact List.mem_map.mpr ⟨_, hmem, if_pos rfl⟩
    · rw [Function.update_of_ne hid]
      refine Option.ext fun content' => ?_
      rw [h'.whole_eq_some, h.whole_eq_some]
      constructor
      · intro hfile
        obtain ⟨f, hf, heq⟩ := List.mem_map.mp hfile
        by_cases hfid : f.id = id
        · rw [if_pos hfid] at heq
          exact absurd (hfid ▸ congrArg LocalPackfile.id heq).symm hid
        · rw [if_neg hfid] at heq
          exact heq ▸ hf
      · exact fun hfile => mem_map_of_id_ne hfile hid
  exact (Outbox.Runs.put (s := s.outbox) hfree).of_eq hwhole rfl

/-- A packfile is deleted after its acknowledgement. -/
theorem Intact.runs_remove (h : Intact s) (hs : s.sender = .acknowledged id content) :
    s.outbox.Runs ({ s with
      files := PackfileFolder.removeFile s.files id
      sender := .idle
      deleted := (id, content) :: s.deleted } : PackfileFolder).outbox := by
  have h' := h.remove hs
  obtain ⟨hmem, hack⟩ := h.acknowledged _ _ hs
  have hwhole : ({ s with
      files := PackfileFolder.removeFile s.files id
      sender := .idle
      deleted := (id, content) :: s.deleted } : PackfileFolder).whole
      = Function.update s.whole id none := by
    funext id'
    by_cases hid : id' = id
    · subst hid
      rw [Function.update_self]
      refine Option.eq_none_iff_forall_ne_some.mpr fun content' hsome => ?_
      have hfile := List.of_mem_filter (h'.whole_eq_some.mp hsome)
      simp at hfile
    · rw [Function.update_of_ne hid]
      refine Option.ext fun content' => ?_
      rw [h'.whole_eq_some, h.whole_eq_some]
      exact List.mem_filter.trans (and_iff_left (by simpa using hid))
  have hremoved := Outbox.Runs.remove (s := s.outbox) (h.whole_eq_some.mpr hmem)
    (List.mem_reverse.mpr hack)
  exact hremoved.of_eq hwhole rfl

/-- One step of the two tasks is a run of the outbox. -/
theorem runs_of_packfileStep {a : PackfileAction} (h : Intact s) (hok : ReadsWhole s a)
    (hst : packfileStep s a = some s') : s.outbox.Runs s'.outbox := by
  have h' := intact_step h hok hst
  cases a <;> simp only [packfileStep] at hst
  case create ok =>
    split at hst
    · split at hst <;> obtain rfl := Option.some.inj hst
      · rw [h.outbox_congr h' rfl fun id content => by simp]
        exact .refl _
      · exact .refl _
    · cases hst
  case write n =>
    split at hst
    · rename_i id buffer rest hw
      obtain rfl := Option.some.inj hst
      rw [h.outbox_congr h' rfl fun id' content => mem_map_whole fun f hid hf => ?_]
      · exact .refl _
      · have hnot := h.not_whole_of_writing hw hid hf
        exact ⟨hnot, hnot⟩
    · cases hst
  case writeDone =>
    split at hst
    · rename_i id buffer hw
      obtain rfl := Option.some.inj hst
      exact h.runs_writeDone hw
    · cases hst
  case ack =>
    split at hst
    · rename_i id content hs
      obtain rfl := Option.some.inj hst
      have hacked := Outbox.Runs.ack (s := s.outbox) (h.whole_eq_some.mpr (h.sending _ _ hs))
      exact hacked.of_eq rfl List.reverse_cons
    · cases hst
  case remove =>
    split at hst
    · rename_i id content hs
      obtain rfl := Option.some.inj hst
      exact h.runs_remove hs
    · cases hst
  case read file =>
    obtain ⟨-, hst⟩ := Option.ite_none_right_eq_some.mp hst
    obtain rfl := Option.some.inj hst
    exact .refl _
  all_goals
    split at hst
    · obtain rfl := Option.some.inj hst
      exact .refl _
    · cases hst

/-- In every run whose sender reads whole packfiles only, the whole packfiles and what has been
acknowledged are those of an outbox. -/
theorem runs_of_packfiles (h : Reach packfileStep ReadsWhole .start s) :
    Outbox.Runs ⟨fun _ => none, []⟩ s.outbox := by
  obtain ⟨-, o, hruns, rfl⟩ : Intact s ∧ ∃ o, Outbox.Runs ⟨fun _ => none, []⟩ o ∧ o = s.outbox :=
    h.simulated (I := Intact) (R := fun s o => o = s.outbox) Intact.start rfl
      (fun _ _ _ hi hok hst => intact_step hi hok hst)
      fun _ _ s' o hi ho hok hst => ⟨s'.outbox, ho ▸ runs_of_packfileStep hi hok hst, rfl⟩
  exact hruns

end

/-! ## 2. Whole packfiles -/

/-- A new packfile is put into the outbox. -/
theorem runs_of_gains {o : Outbox PackfileId Bytes} {new : Option PackfileId}
    {after : PackfileId → Option Bytes} (h : Gains o.held new after) :
    o.Runs { o with held := after } := by
  cases h with
  | nothing => exact .refl _
  | created id content _ hfree => exact .put hfree

namespace Upload

variable {P : Primitives} {keys : KeyManager} {s s' : State} {a : Action}

def State.outbox (s : State) : Outbox PackfileId Bytes :=
  ⟨s.disk.packfiles, s.acknowledged.map Prod.snd⟩

theorem State.SameFolder.outbox (h : s.SameFolder s') : s'.outbox = s.outbox := by
  rw [State.outbox, State.outbox, State.disk, h.packing, h.acknowledged, State.disk]

theorem runs_of_step (hst : step P keys s a = some s') : s.outbox.Runs s'.outbox := by
  cases effect_of_step hst with
  | controls _ _ hsame =>
    rw [hsame.outbox]
    exact .refl _
  | packs _ b p _ _ hpack hsame =>
    rw [hsame.outbox]
    exact runs_of_gains (gains_of_packStep hpack)
  | acks peer id content removed packfiles _ hheld hother hsame' hsame =>
    have hack := Outbox.Runs.ack (s := s.outbox) hheld
    have hacked : (s.acknowledged ++ [(peer, id, content)]).map Prod.snd
        = s.acknowledged.map Prod.snd ++ [(id, content)] := List.map_append
    rw [hsame.outbox]
    rcases hsame' with hkept | hgone
    · -- the packfile is still there
      have heq : packfiles = s.disk.packfiles := by
        funext id'
        by_cases hid : id' = id
        · rw [hid, hkept, hheld]
        · exact hother id' hid
      exact hack.of_eq heq hacked
    · have heq : packfiles = Function.update s.disk.packfiles id none := by
        funext id'
        by_cases hid : id' = id
        · rw [hid, hgone, Function.update_self]
        · rw [Function.update_of_ne hid, hother id' hid]
      have hremoved := hack.trans
        (Outbox.Runs.remove hheld (List.mem_append_right _ List.mem_cons_self))
      exact hremoved.of_eq heq hacked
  | indexes peer listing io _ _ hsame =>
    rw [hsame.outbox]
    exact .refl _

/-- In every run of the client, the folder and what peers have acknowledged are those of an
outbox. -/
theorem runs_of_upload (h : Reach (step P keys) (fun _ _ => True) s s') :
    s.outbox.Runs s'.outbox := by
  obtain ⟨-, o, hruns, rfl⟩ : True ∧ ∃ o, s.outbox.Runs o ∧ o = s'.outbox :=
    h.simulated (I := fun _ => True) (R := fun s o => o = s.outbox) trivial rfl
      (fun _ _ _ _ _ _ => trivial)
      fun _ _ s' o _ ho _ hst => ⟨s'.outbox, ho ▸ runs_of_step hst, rfl⟩
  exact hruns

/-- A packfile stays in the folder until a peer has acknowledged it as it is. -/
theorem held_or_acknowledged (h : Reach (step P keys) (fun _ _ => True) s s') {id : PackfileId}
    {content : Bytes} (hheld : s.disk.packfiles id = some content) :
    s'.disk.packfiles id = some content ∨ ∃ peer, (peer, id, content) ∈ s'.acknowledged := by
  refine (Outbox.safe_of_runs (runs_of_upload h) (Or.inl hheld)).imp_right fun hack => ?_
  obtain ⟨⟨peer, _⟩, hmem, rfl⟩ := List.mem_map.mp hack
  exact ⟨peer, hmem⟩

end Upload

/-! ## 3. The counters -/

namespace Buffering

variable {P : Primitives} {keys : KeyManager} {s s' : State} {a : Action}

/-- The outbox holds the packfiles of the folder, and what it has acknowledged is counted. -/
structure CountsSent (s : State) (o : Outbox PackfileId Bytes) : Prop where
  held : o.held = s.world.disk.packfiles
  sent : (o.acknowledged.map fun p => p.2.length).sum = s.packfileBytesSent

theorem CountsSent.world {o : Outbox PackfileId Bytes} (h : CountsSent s o) {m : ManagerAction}
    {w : World} (hw : managerStep P keys s.world m = some w) (hdisk : s'.world.disk = w.disk)
    (hsent : s'.packfileBytesSent = s.packfileBytesSent) :
    ∃ o', o.Runs o' ∧ CountsSent s' o' := by
  have hgains := gains_of_managerStep hw
  rw [← h.held, ← hdisk] at hgains
  exact ⟨_, runs_of_gains hgains, rfl, h.sent.trans hsent.symm⟩

theorem CountsSent.same {o : Outbox PackfileId Bytes} (h : CountsSent s o)
    (hdisk : s'.world.disk = s.world.disk) (hsent : s'.packfileBytesSent = s.packfileBytesSent) :
    ∃ o', o.Runs o' ∧ CountsSent s' o' :=
  ⟨o, .refl _, h.held.trans (congrArg Disk.packfiles hdisk).symm, h.sent.trans hsent.symm⟩

theorem CountsSent.send {o : Outbox PackfileId Bytes} (h : CountsSent s o) (hleft : LeftAlone s)
    {e : SendEvent} (hst : sendStep s e = some s') : ∃ o', o.Runs o' ∧ CountsSent s' o' := by
  have hacked : ∀ (written matched : ℕ) (id : PackfileId) (size : ℕ),
      s.sender.pc = .acking written matched id size → ∃ content, o.held id = some content ∧
        ((o.acknowledged ++ [(id, content)]).map fun p => p.2.length).sum
          = s.packfileBytesSent + size := by
    intro written matched id size hpc
    obtain ⟨content, hcontent, rfl⟩ := hleft.acking _ _ _ _ hpc
    refine ⟨content, h.held ▸ hcontent, ?_⟩
    rw [List.map_append, List.sum_append, h.sent]
    rfl
  cases sends_of_sendStep hst with
  | acked written matched id size hpc =>
    obtain ⟨content, hheld, hsum⟩ := hacked _ _ _ _ hpc
    refine ⟨_, (Outbox.Runs.ack hheld).trans (Outbox.Runs.remove hheld
      (List.mem_append_right _ List.mem_cons_self)), ?_, hsum⟩
    rw [h.held]
    rfl
  | keeps written matched id size hpc =>
    obtain ⟨content, hheld, hsum⟩ := hacked _ _ _ _ hpc
    exact ⟨_, Outbox.Runs.ack hheld, h.held, hsum⟩
  | pauses | checks | subscribes | loads | begins | rests | unconnected | stats | fails | listed
    | underflows | resumes | goesOn | resumed | finishes | indexed | indexFails =>
    exact h.same rfl rfl

/-- One step of a running backup is a run of the outbox. -/
theorem runs_of_runningStep {o : Outbox PackfileId Bytes} (h : CountsSent s o)
    (hleft : LeftAlone s) (hst : step P keys s a = some s') :
    ∃ o', o.Runs o' ∧ CountsSent s' o' := by
  cases moved_of_step hst with
  | adds t kind data w call ht hw => exact h.world hw rfl rfl
  | calls t e i wrote w ht hw => exact h.world hw rfl rfl
  | writes t io i wrote w ht hw =>
    exact h.world hw (congrArg World.disk (record_world hleft.notDeleted)) record_sent
  | flushes w hall hw => exact h.world hw rfl rfl
  | flushWrites io w hw =>
    exact h.world hw (congrArg World.disk (record_world hleft.notDeleted)) record_sent
  | flushIndexes io w hw => exact h.world hw rfl rfl
  | grows t id length i wrote w s' ht hw hgrow =>
    obtain ⟨-, rfl⟩ := State.grow_eq_some hgrow
    exact h.same rfl rfl
  | flushGrows id length w s' hw hgrow =>
    obtain ⟨-, rfl⟩ := State.grow_eq_some hgrow
    exact h.same rfl rfl
  | returnsOk | returnsError | blocks | completes | learns => exact h.same rfl rfl
  | sends e s' hst => exact h.send hleft hst

/-- In every run of a backup in which `send` takes whole packfiles only, the folder is that of an
outbox, and `packfile_bytes_sent` is the size of what has been acknowledged. -/
theorem runs_of_running (hP : P.Lawful) {k left : ℕ} {disk : Disk} {ix : BlobIndex} {sized : Bool}
    (h : Reach (step P keys) TakesWhole (start k disk ix left sized) s) :
    ∃ o, Outbox.Runs ⟨disk.packfiles, []⟩ o ∧ CountsSent s o := by
  have hstart : LeftAlone (start k disk ix left sized) :=
    ⟨fun hne => absurd rfl hne, by simp [start], by simp [start]⟩
  exact (h.simulated hstart (R := CountsSent) ⟨rfl, rfl⟩
    (fun _ _ _ hleft hok hst => leftAlone_step hP hleft hok hst)
    fun _ _ _ _ hleft hcounts _ hst => runs_of_runningStep hcounts hleft hst).2

end Buffering

end Backuwup.Client
