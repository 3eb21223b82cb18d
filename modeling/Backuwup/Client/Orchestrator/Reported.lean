/-
# A snapshot that was reported can be restored (`backup/mod.rs`, `send.rs`)

`run` tells the server that a backup is done once `pack` and `send` have returned `Ok`.  By then
the packfiles are gone from the disk of the client, so what counts is what the peers have
acknowledged.  `reported_restorable` says that it is enough: whatever folder holds the packfiles
and the index files that were acknowledged, a manager that opens it finds every blob of every
snapshot that was ever reported, in any later state of the client.

Three things come together.  In the folder with the sent packfiles put back, `pack` keeps what it
promises on its own (`whole_follows`).  The index files that were acknowledged are those of the
folder, up to the stored mark (`Synced`).  And `send` sends an index file only when no packfile is
left to be sent, so the entries of an index file at a peer point to packfiles at a peer
(`Uploaded.delivered`).
-/
import Backuwup.Client.DirPacker.WholeUnpacked
import Backuwup.Client.Orchestrator.Upload
import Backuwup.Client.Tampering

namespace Backuwup.Client.Upload

open Transition

variable {P : Primitives} {keys : KeyManager}

/-! ## 1. The index files that were acknowledged -/

/-- What one call of `send_index` acknowledges are files of the folder, and the mark is the number
of one of them. -/
structure SendsFrom (folder : Folder) (x x' : IndexSender) : Prop where
  old : x.acknowledged ⊆ x'.acknowledged
  new : ∀ a ∈ x'.acknowledged, a ∈ x.acknowledged ∨
    ∃ name, (name, a.2.2) ∈ folder ∧ parseIndexPathIntoId name = some a.2.1
  mark : x'.highestSentIndex = x.highestSentIndex ∨
    ∃ a ∈ x'.acknowledged, x'.highestSentIndex = some a.2.1

namespace SendsFrom

variable {folder : Folder} {x x' x'' : IndexSender}

theorem refl (x : IndexSender) : SendsFrom folder x x :=
  ⟨List.Subset.refl _, fun _ h => Or.inl h, Or.inl rfl⟩

theorem trans (h : SendsFrom folder x x') (h' : SendsFrom folder x' x'') :
    SendsFrom folder x x'' where
  old := List.Subset.trans h.old h'.old
  new a ha := by
    rcases h'.new a ha with ha | hfile
    · exact h.new a ha
    · exact Or.inr hfile
  mark := by
    rcases h'.mark with heq | hnew
    · rcases h.mark with heq' | ⟨a, ha, heq'⟩
      · exact Or.inl (heq.trans heq')
      · exact Or.inr ⟨a, h'.old ha, heq.trans heq'⟩
    · exact Or.inr hnew

theorem file {peer : ClientId} {name : FileName} {data : Bytes} {io : IndexIo}
    {r : Except SendIndexError Unit} (hmem : (name, data) ∈ folder)
    (h : sendIndexFile peer name data io x = (x', r)) : SendsFrom folder x x' := by
  obtain ⟨rfl, -⟩ | ⟨rfl, -⟩ | ⟨num, hparse, -, hack, hmark⟩ :=
    sendIndexFile_cases peer name data io x h
  · exact .refl _
  · exact .refl _
  · refine ⟨?_, ?_, ?_⟩
    · rw [hack]
      exact List.subset_append_left _ _
    · intro a ha
      rw [hack] at ha
      rcases List.mem_append.mp ha with ha | ha
      · exact Or.inl ha
      · obtain rfl := List.mem_singleton.mp ha
        exact Or.inr ⟨name, hmem, hparse⟩
    · obtain ⟨hmark, -⟩ | ⟨hmark, -⟩ := hmark
      · exact Or.inl hmark
      · refine Or.inr ⟨(peer, num, data), ?_, hmark⟩
        rw [hack]
        exact List.mem_append_right _ List.mem_cons_self

theorem items (peer : ClientId) (rest : List DirItem)
    (hrest : ∀ f ∈ rest.filterMap DirItem.file?, f ∈ folder) (io : ℕ → IndexIo)
    (x : IndexSender) : SendsFrom folder x (sendIndexItems peer rest io x).1 := by
  induction rest generalizing io x with
  | nil => exact .refl _
  | cons item rest ih =>
    have htail : ∀ f ∈ rest.filterMap DirItem.file?, f ∈ folder := by
      intro f hf
      refine hrest f ?_
      rw [List.filterMap_cons]
      split
      · exact hf
      · exact List.mem_cons_of_mem _ hf
    cases item with
    | other => exact ih htail _ x
    | fileTypeError => exact .refl _
    | error => exact .refl _
    | file name data =>
      rw [sendIndexItems]
      cases hfile : sendIndexFile peer name data (io 0) x with
      | mk x' r =>
        have hone : SendsFrom folder x x' := .file (hrest _ List.mem_cons_self) hfile
        cases r with
        | error e => exact hone
        | ok u => exact hone.trans (ih htail _ x')

/-- A call of `send_index` that lists the folder. -/
theorem call {peer : ClientId} {listing : Option (List DirItem)} {io : ℕ → IndexIo}
    (hlists : ∀ items ∈ listing, Lists folder items) :
    SendsFrom folder x (sendIndex peer listing io x).1 := by
  cases listing with
  | none => exact .refl _
  | some items =>
    exact SendsFrom.items peer items (fun f hf => (hlists items rfl).mem_iff.mp hf) io x

end SendsFrom

/-- The index files that were acknowledged are in the folder, an open manager will not write them
again, and those up to the mark have all been acknowledged. -/
structure Synced (w : World) (x : IndexSender) : Prop where
  stored : ∀ a ∈ x.acknowledged, a.2.1 ≤ u32Max ∧ (indexFileName a.2.1, a.2.2) ∈ w.disk.index
  bound : ∀ s, w.session = some s → ∀ a ∈ x.acknowledged, a.2.1 ≤ s.manager.index.lastFileNum
  mark : ∀ m ∈ x.highestSentIndex, ∃ a ∈ x.acknowledged, a.2.1 = m
  covered : Covered w.disk.index none x

theorem synced_start : Synced .start ⟨none, [], []⟩ :=
  ⟨by simp, by simp [World.start], by simp, by simp [Covered, World.start, Disk.empty]⟩

namespace Synced

variable {w w' : World} {x : IndexSender}

theorem manager (h : Synced w x) {a : ManagerAction} (hst : managerStep P keys w a = some w') :
    Synced w' x := by
  obtain ⟨-, hdisk, hbound⟩ | ⟨s, ix, hs, hext, hnum⟩ := (stepped_of_managerStep hst).extends
  · refine ⟨?_, ?_, h.mark, ?_⟩
    · rw [hdisk]
      exact h.stored
    · intro s hs a ha
      obtain ⟨hmax, hmem⟩ := h.stored a ha
      exact hbound s hs _ hmem _ hmax rfl
    · rw [hdisk]
      exact h.covered
  · refine ⟨?_, ?_, h.mark, ?_⟩
    · intro a ha
      obtain ⟨hmax, hmem⟩ := h.stored a ha
      exact ⟨hmax, hext.kept _ hmem _ (h.bound s hs a ha) hmax rfl⟩
    · intro s' hs' a ha
      rw [hnum s' hs']
      exact (h.bound s hs a ha).trans hext.number
    · intro f hf num hparse _
      rcases hext.added f hf with hold | ⟨num', hlt, hmax, hname⟩
      · exact h.covered f hold num hparse (by simp [Above])
      · -- a file of a new number is above the mark
        rw [hname, parseIndexPathIntoId_indexFileName hmax, Option.some.injEq] at hparse
        subst hparse
        refine Or.inr ?_
        intro m hm
        obtain ⟨a, ha, rfl⟩ := h.mark m hm
        exact (h.bound s hs a ha).trans_lt hlt

/-- A call of `send_index` while no manager is open. -/
theorem send (h : Synced w x) (hnumbered : Numbered w.disk.index) (hs : w.session = none)
    (peer : ClientId) {listing : Option (List DirItem)} (io : ℕ → IndexIo)
    (hlists : ∀ items ∈ listing, Lists w.disk.index items ∧
      (numbersAbove x.highestSentIndex items).Pairwise (· < ·)) :
    Synced w (sendIndex peer listing io x).1 ∧
      ((sendIndex peer listing io x).2 = .ok () → ∀ f ∈ w.disk.index, ∀ num,
        parseIndexPathIntoId f.1 = some num → Acknowledged (sendIndex peer listing io x).1 num
          f.2) := by
  have hfrom : SendsFrom w.disk.index x (sendIndex peer listing io x).1 :=
    .call fun items hitems => (hlists items hitems).1
  have hpending := sendIndex_pending (r := ⟨x, none⟩) (c := ⟨peer, listing, io⟩) h.covered
    ⟨fun items hitems => (hlists items hitems).1, fun items hitems => (hlists items hitems).2⟩
  refine ⟨⟨?_, ?_, ?_, hpending.1⟩, ?_⟩
  · intro a ha
    rcases hfrom.new a ha with ha | ⟨name, hmem, hparse⟩
    · exact h.stored a ha
    · obtain ⟨num, hmax, hname⟩ := hnumbered _ hmem
      obtain rfl : name = indexFileName num := hname
      rw [parseIndexPathIntoId_indexFileName hmax, Option.some.injEq] at hparse
      exact hparse ▸ ⟨hmax, hmem⟩
  · intro s hsome
    cases hs.symm.trans hsome
  · intro m hm
    rcases hfrom.mark with heq | ⟨a, ha, heq⟩
    · obtain ⟨a, ha, rfl⟩ := h.mark m (heq ▸ hm)
      exact ⟨a, hfrom.old ha, rfl⟩
    · rw [heq, Option.mem_some_iff] at hm
      exact ⟨a, ha, hm⟩
  · intro hok f hf num hparse
    exact (hpending.2 hok).of_nil hf hparse (by simp [Above])

end Synced

/-! ## 2. What a step does -/

section

variable {s s' : State} {a : Action}

/-- Nothing but the variables of `run` and `send`. -/
structure State.SameFolder (s s' : State) : Prop where
  packing : s'.packing = s.packing
  acknowledged : s'.acknowledged = s.acknowledged
  index : s'.index = s.index

/-- What a step does to the folder and to what the peers have. -/
inductive Effect (P : Primitives) (keys : KeyManager) (s : State) : Action → State → Prop
  | controls (a : Action) (s' : State) : s.SameFolder s' → Effect P keys s a s'
  | packs (a : Action) (b : PackAction) (p : Packing) (s' : State) :
      (a = .pack b ∨ a = .kill ∧ b = .kill) → packStep P keys s.packing b = some p →
      State.SameFolder { s with packing := p } s' → Effect P keys s a s'
  | acks (peer : ClientId) (id : PackfileId) (content : Bytes) (removed : Bool)
      (packfiles : PackfileId → Option Bytes) (s' : State) :
      s.disk.packfiles id = some content →
      (∀ id', id' ≠ id → packfiles id' = s.disk.packfiles id') →
      (packfiles id = some content ∨ packfiles id = none) →
      State.SameFolder { s with
        packing := { s.packing with world := { s.packing.world with
          disk := { s.disk with packfiles := packfiles } } }
        acknowledged := s.acknowledged ++ [(peer, id, content)] } s' →
      Effect P keys s (.send (.acked id removed)) s'
  | indexes (peer : ClientId) (listing : Option (List DirItem)) (io : ℕ → IndexIo) (s' : State) :
      s.sender.pc = .indexing →
      State.SameFolder { s with index := (sendIndex peer listing io s.index).1 } s' →
      Effect P keys s (.send (.index listing io)) s'

theorem State.SameFolder.refl (s : State) : s.SameFolder s := ⟨rfl, rfl, rfl⟩

/-- What an action of `send` can do. -/
inductive Sends (s : State) : SendEvent → State → Prop
  | begins : Sends s .begin { s with sender :=
      ⟨.top, none, s.packfileBytesWritten, s.storageRequestLastMatched, false, false⟩ }
  /-- no more has been found out -/
  | moves (e : SendEvent) (x : Sender) : x.packfilesDone = s.sender.packfilesDone →
      x.indexDone = s.sender.indexDone → (x.pc = .indexing → x.packfilesDone = true) →
      (x.pc = .ended true → x.indexDone = true) → Sends s e { s with sender := x }
  | removes (peer : ClientId) (id : PackfileId) (content : Bytes) :
      s.disk.packfiles id = some content → Sends s (.acked id true)
        (State.removeFile { s with acknowledged := s.acknowledged ++ [(peer, id, content)] } id)
  | leaves (peer : ClientId) (id : PackfileId) (content : Bytes) :
      s.disk.packfiles id = some content → Sends s (.acked id false)
        (State.disconnect { s with acknowledged := s.acknowledged ++ [(peer, id, content)] })
  | sizes (n : ℕ) : s.packingCompleted = true → Sends s (.getSize (some n)) { s with sender :=
      { s.sender with packfilesDone := s.sender.packfilesDone || decide (n = 0) }.rest }
  | indexes (peer : ClientId) (listing : Option (List DirItem)) (io : ℕ → IndexIo)
      (index : IndexSender) : s.sender.pc = .indexing →
      sendIndex peer listing io s.index = (index, .ok ()) → Sends s (.index listing io)
        { s with index := index, sender := { s.sender with indexDone := true }.rest }
  | stops (peer : ClientId) (listing : Option (List DirItem)) (io : ℕ → IndexIo)
      (index : IndexSender) : s.sender.pc = .indexing →
      (sendIndex peer listing io s.index).1 = index → Sends s (.index listing io)
        (State.disconnect { s with index := index })

theorem Sender.rest_indexing {x : Sender} (h : x.rest.pc = .indexing) :
    x.packfilesDone = true := by
  simp only [Sender.rest] at h
  split at h
  · assumption
  · cases h

theorem Sender.rest_ended {x : Sender} (h : x.rest.pc = .ended true) : x.indexDone = true := by
  simp only [Sender.rest] at h
  split at h
  · split at h
    · assumption
    · cases h
  · cases h

/-- `send` goes to a place where nothing needs to have been found out. -/
theorem Sends.setPc (e : SendEvent) {pc : SendPc} (hindexing : pc ≠ .indexing)
    (hended : pc ≠ .ended true) : Sends s e (s.setSender pc) :=
  .moves e _ rfl rfl (fun h => absurd h hindexing) fun h => absurd h hended

theorem Sends.disconnect (e : SendEvent) : Sends s e s.disconnect :=
  .moves e _ rfl rfl nofun nofun

theorem sends_of_sendStep {e : SendEvent} (hst : sendStep s e = some s') : Sends s e s' := by
  unfold sendStep at hst
  split at hst
  · obtain ⟨-, hst⟩ := Option.ite_none_right_eq_some.mp hst
    exact Option.some.inj hst ▸ .begins
  · exact Option.some.inj hst ▸ .setPc _ nofun nofun
  · -- `get_peer_connection` has a connection, and there is something to send or not
    obtain rfl := Option.some.inj hst
    dsimp only
    split
    · exact .moves _ _ rfl rfl nofun nofun
    · split
      · exact .moves _ _ rfl rfl Sender.rest_indexing Sender.rest_ended
      · exact .moves _ _ rfl rfl nofun nofun
  · rename_i id removed _ _ _
    split at hst
    · rename_i peer content _ hcontent
      obtain rfl := Option.some.inj hst
      cases removed with
      | true => exact .removes peer id content hcontent
      | false => exact .leaves peer id content hcontent
    · cases hst
  · exact Option.some.inj hst ▸ .disconnect _
  · exact Option.some.inj hst ▸ .moves _ _ rfl rfl nofun nofun
  · exact Option.some.inj hst ▸ .setPc _ nofun nofun
  · rename_i size _
    split at hst
    · rename_i hcompleted
      cases size with
      | none => exact Option.some.inj hst ▸ .setPc _ nofun nofun
      | some n => exact Option.some.inj hst ▸ .sizes n hcompleted
    · exact Option.some.inj hst ▸ .moves _ _ rfl rfl Sender.rest_indexing Sender.rest_ended
  · rename_i listing io hpc
    split at hst
    · cases hst
    · rename_i peer _
      split at hst
      · rename_i index _ hsend
        exact Option.some.inj hst ▸ .indexes peer listing io index hpc hsend
      · rename_i index _ hsend
        exact Option.some.inj hst ▸ .stops peer listing io index hpc (congrArg Prod.fst hsend)
  · cases hst

theorem Sends.effect {e : SendEvent} (h : Sends s e s') : Effect P keys s (.send e) s' := by
  cases h with
  | begins => exact .controls _ _ ⟨rfl, rfl, rfl⟩
  | moves => exact .controls _ _ ⟨rfl, rfl, rfl⟩
  | removes peer id content hcontent =>
    exact .acks peer id content true _ _ hcontent (fun id' hid' => Function.update_of_ne hid' _ _)
      (Or.inr (Function.update_self _ _ _)) (.refl _)
  | leaves peer id content hcontent =>
    exact .acks peer id content false s.disk.packfiles _ hcontent (fun _ _ => rfl)
      (Or.inl hcontent) ⟨rfl, rfl, rfl⟩
  | sizes => exact .controls _ _ ⟨rfl, rfl, rfl⟩
  | indexes peer listing io index hpc hsend =>
    exact .indexes peer listing io _ hpc ⟨rfl, rfl, (congrArg Prod.fst hsend).symm⟩
  | stops peer listing io index hpc hsend =>
    exact .indexes peer listing io _ hpc ⟨rfl, rfl, hsend.symm⟩

/-- `run` reports the snapshot that `pack` has returned. -/
theorem reported_of_report (hst : step P keys s .report = some s') :
    ∃ root, s.packing.result = some root ∧ s.sender.pc = .ended true ∧
      s' = { s with running := false, reported := root :: s.reported } := by
  simp only [step] at hst
  split at hst
  · rename_i root hroot hpc
    obtain ⟨-, hst⟩ := Option.ite_none_right_eq_some.mp hst
    exact ⟨root, hroot, hpc, (Option.some.inj hst).symm⟩
  · cases hst

theorem effect_of_step (hst : step P keys s a = some s') : Effect P keys s a s' := by
  cases a with
  | begin | complete =>
    simp only [step] at hst
    split at hst
    all_goals first
      | cases hst; done
      | obtain rfl := Option.some.inj hst
        exact .controls _ _ ⟨rfl, rfl, rfl⟩
  | pack b =>
    obtain ⟨-, hst⟩ := Option.ite_none_right_eq_some.mp hst
    obtain ⟨p, hp, rfl⟩ := Option.map_eq_some_iff.mp hst
    exact .packs _ b p _ (Or.inl rfl) hp ⟨rfl, rfl, rfl⟩
  | written bytes | matched time =>
    obtain rfl := Option.some.inj hst
    exact .controls _ _ ⟨rfl, rfl, rfl⟩
  | send e => exact (sends_of_sendStep hst).effect
  | report =>
    obtain ⟨root, -, -, rfl⟩ := reported_of_report hst
    exact .controls _ _ ⟨rfl, rfl, rfl⟩
  | abort =>
    simp only [step] at hst
    split at hst
    · obtain ⟨-, hst⟩ := Option.ite_none_right_eq_some.mp hst
      obtain rfl := Option.some.inj hst
      exact .controls _ _ ⟨rfl, rfl, rfl⟩
    · cases hst
  | kill =>
    simp only [step] at hst
    split at hst
    · obtain rfl := Option.some.inj hst
      exact .controls _ _ ⟨rfl, rfl, rfl⟩
    · obtain ⟨p, hp, rfl⟩ := Option.map_eq_some_iff.mp hst
      exact .packs _ .kill p _ (Or.inr ⟨rfl, rfl⟩) hp ⟨rfl, rfl, rfl⟩

/-! ## 3. The folder with the packfiles that were sent -/

theorem State.SameFolder.gone (h : s.SameFolder s') : s'.gone = s.gone := by
  funext id
  simp only [State.gone, h.acknowledged]

theorem State.SameFolder.whole (h : s.SameFolder s') : s'.whole = s.whole := by
  simp only [State.whole, h.gone, h.packing]

theorem State.SameFolder.consistent (h : s.SameFolder s') (hs : Consistent s) :
    Consistent s' := by
  intro a ha
  rw [h.whole]
  exact hs a (h.acknowledged ▸ ha)

/-- A write that loses nothing in the folder loses nothing in the folder with all packfiles. -/
theorem losesNone_putBack {p : Packing} {gone : PackfileId → Option Bytes} {b : PackAction}
    (h : LosesNone p b) (hfresh : ∀ id ∈ b.packfileId, gone id = none) :
    LosesNone (p.putBack gone) b := by
  cases b with
  | call c =>
    cases c with
    | write t io =>
      intro x hx
      obtain ⟨hnone, hrest⟩ := h x hx
      refine ⟨?_, hrest⟩
      change (p.world.disk.packfiles io.id).or (gone io.id) = none
      rw [hnone, hfresh io.id rfl]
      rfl
    | _ => trivial
  | _ => trivial

/-- What the packer asks of a step. -/
theorem sane_of_packs {b : PackAction} (ha : a = .pack b ∨ a = .kill ∧ b = .kill)
    (hsane : Sane s a) : LosesNone s.packing b ∧ ∀ id ∈ b.packfileId, s.gone id = none := by
  rcases ha with rfl | ⟨-, rfl⟩
  · exact hsane
  · exact ⟨trivial, by simp [PackAction.packfileId]⟩

/-- In the folder with all packfiles every step is one of `pack`, or none. -/
theorem whole_follows (hs : Consistent s) (hsane : Sane s a) (h : Effect P keys s a s') :
    Follows (packStep P keys) LosesNone s.whole s'.whole := by
  cases h with
  | controls a s' hsame =>
    rw [hsame.whole]
    exact .refl _
  | packs a b p s' ha hp hsame =>
    obtain ⟨hloses, hfresh⟩ := sane_of_packs ha hsane
    refine .of_step (b := b) (losesNone_putBack hloses hfresh) ?_
    rw [hsame.whole, State.whole, packStep_putBack _ hfresh, hp]
    rfl
  | acks peer id content removed packfiles s' hsome hother hkept hsame =>
    have heq := funext (whole_acked hs peer hsome hother hkept)
    rw [hsame.whole]
    refine Or.inl ?_
    change ({ s.whole with world := { s.whole.world with disk := { s.whole.world.disk with
      packfiles := fun id' => (packfiles id').or (({ s with
        acknowledged := s.acknowledged ++ [(peer, id, content)] } : State).gone id') } } } :
          Packing) = s.whole
    rw [heq]
  | indexes peer listing io s' hpc hsame =>
    rw [hsame.whole]
    exact .refl _

theorem Consistent.step (hP : P.Lawful) (hs : Consistent s) (hsound : PackSound P keys s.whole)
    (hsane : Sane s a) (h : Effect P keys s a s') : Consistent s' := by
  have hfollows := whole_follows hs hsane h
  have hkeeps : ∀ id content, s.whole.world.disk.packfiles id = some content →
      s'.whole.world.disk.packfiles id = some content := by
    intro id content hid
    rcases hfollows with heq | ⟨b, -, hst⟩
    · rw [heq]
      exact hid
    · obtain ⟨-, hw | ⟨c, hm, -⟩⟩ := packOk_step hsound.pack hst
      · rw [hw]
        exact hid
      · exact (stepped_of_managerStep hm).keepsPackfiles hP hsound.sound hid
  cases h with
  | controls a s' hsame => exact hsame.consistent hs
  | packs a b p s' ha hp hsame =>
    intro x hx
    rw [hsame.acknowledged] at hx
    exact hkeeps _ _ (hs x hx)
  | acks peer id content removed packfiles s' hsome hother hkept hsame =>
    intro x hx
    rw [hsame.acknowledged] at hx
    rcases List.mem_append.mp hx with hx | hx
    · exact hkeeps _ _ (hs x hx)
    · obtain rfl := List.mem_singleton.mp hx
      exact hkeeps _ _ (Disk.putBack_of_some hsome)
  | indexes peer listing io s' hpc hsame =>
    intro x hx
    rw [hsame.acknowledged] at hx
    exact hkeeps _ _ (hs x hx)

/-! ## 4. What holds in every state -/

/-- The entry is in an index file that a peer has acknowledged. -/
def AtPeers (P : Primitives) (keys : KeyManager) (x : IndexSender) (e : IndexEntry) : Prop :=
  ∃ a ∈ x.acknowledged, ∃ items,
    loadFile P keys (indexFileName a.2.1) a.2.2 = .ok items ∧ e ∈ items

/-- Everything of the snapshot was taken by the packer, and has an entry at the peers. -/
def Saved (P : Primitives) (keys : KeyManager) (added : List Blob) (x : IndexSender)
    (root : BlobHash) : Prop :=
  ∃ taken : Blob → Prop, Whole P taken root ∧ (∀ b, taken b → b ∈ added) ∧
    ∀ b, taken b → ∃ id, AtPeers P keys x (b.hash, id)

/-- What holds of the folder. -/
structure Packed (P : Primitives) (keys : KeyManager) (s : State) : Prop where
  consistent : Consistent s
  pack : PackSound P keys s.whole
  accounted : Accounted P keys s.whole.world
  loads : Loads P keys s.whole.world

/-- What holds of `send`: when it has found the folder empty, packing is completed and nothing is
left to be sent; index files are sent after that, so their entries are at the peers. -/
structure Uploaded (P : Primitives) (keys : KeyManager) (s : State) : Prop where
  synced : Synced s.packing.world s.index
  completed : s.packingCompleted = true → s.opened = true ∧ s.packing.result ≠ none
  packfilesDone : s.sender.packfilesDone = true → s.packingCompleted = true ∧
    ∀ id content, s.disk.packfiles id = some content → content = []
  indexing : s.sender.pc = .indexing → s.sender.packfilesDone = true
  indexDone : s.sender.indexDone = true → s.sender.packfilesDone = true ∧
    ∀ f ∈ s.disk.index, ∀ num, parseIndexPathIntoId f.1 = some num →
      Acknowledged s.index num f.2
  ended : s.sender.pc = .ended true → s.sender.indexDone = true
  delivered : ∀ a ∈ s.index.acknowledged, ∃ items,
    loadFile P keys (indexFileName a.2.1) a.2.2 = .ok items ∧
      ∀ e ∈ items, ∃ b ∈ s.acknowledged, b.2.1 = e.2
  reported : ∀ root ∈ s.reported, Saved P keys s.packing.world.added s.index root

theorem packed_start : Packed P keys .start where
  consistent := by simp [Consistent, State.start]
  pack := PackSound.start
  accounted := ⟨fun _ h => (by cases h), fun _ h => (by cases h), fun h => (by cases h)⟩
  loads := fun h => by cases h

theorem uploaded_start : Uploaded P keys .start where
  synced := synced_start
  completed h := by cases h
  packfilesDone h := by cases h
  indexing h := by cases h
  indexDone h := by cases h
  ended h := by cases h
  delivered := by simp [State.start]
  reported := by simp [State.start]

/-- A step of the packer keeps it. -/
theorem kept_step (hP : P.Lawful) (hrej : P.RejectsTruncated) {p p' : Packing} {b : PackAction}
    (h : PackSound P keys p ∧ Accounted P keys p.world ∧ Loads P keys p.world)
    (hb : LosesNone p b) (hst : packStep P keys p b = some p') :
    PackSound P keys p' ∧ Accounted P keys p'.world ∧ Loads P keys p'.world := by
  obtain ⟨hs, hacc, hloads⟩ := h
  refine ⟨packSound_step hP hrej hs hst, ?_⟩
  obtain ⟨-, hw | ⟨c, hm, hk⟩⟩ := packOk_step hs.pack hst
  · exact hw ▸ ⟨hacc, hloads⟩
  · constructor
    · exact accounted_step hP hs.sound hs.unflushed hacc (.of_rejects hrej c) (hk hb) hm
    · exact loads_step hP hs.sound hs.unflushed hm

theorem packed_step (hP : P.Lawful) (hrej : P.RejectsTruncated) (h : Packed P keys s)
    (hsane : Sane s a) (heffect : Effect P keys s a s') : Packed P keys s' := by
  have hcons := h.consistent.step hP h.pack hsane heffect
  obtain ⟨hpack, hacc, hloads⟩ := (whole_follows h.consistent hsane heffect).keeps
    (I := fun p => PackSound P keys p ∧ Accounted P keys p.world ∧ Loads P keys p.world)
    ⟨h.pack, h.accounted, h.loads⟩ fun _ _ _ => kept_step hP hrej
  exact ⟨hcons, hpack, hacc, hloads⟩

/-- `send` moves on, with what it has found out. -/
theorem Uploaded.setSender (h : Uploaded P keys s) {x : Sender}
    (hpackfiles : x.packfilesDone = true → s.packingCompleted = true ∧
      ∀ id content, s.disk.packfiles id = some content → content = [])
    (hindex : x.indexDone = true → x.packfilesDone = true ∧
      ∀ f ∈ s.disk.index, ∀ num, parseIndexPathIntoId f.1 = some num →
        Acknowledged s.index num f.2)
    (hindexing : x.pc = .indexing → x.packfilesDone = true)
    (hended : x.pc = .ended true → x.indexDone = true) :
    Uploaded P keys { s with sender := x } :=
  { h with
    packfilesDone := hpackfiles
    indexing := hindexing
    indexDone := hindex
    ended := hended }

/-- `send` moves on without having found out anything. -/
theorem Uploaded.setPc (h : Uploaded P keys s) {x : Sender}
    (hpackfiles : x.packfilesDone = s.sender.packfilesDone)
    (hindex : x.indexDone = s.sender.indexDone)
    (hindexing : x.pc = .indexing → x.packfilesDone = true)
    (hended : x.pc = .ended true → x.indexDone = true) :
    Uploaded P keys { s with sender := x } := by
  refine h.setSender ?_ ?_ hindexing hended
  · rw [hpackfiles]
    exact h.packfilesDone
  · rw [hindex, hpackfiles]
    exact h.indexDone

/-- A packfile is acknowledged, and is deleted or stays. -/
theorem Uploaded.acked (h : Uploaded P keys s) (acked : ClientId × PackfileId × Bytes)
    (packfiles : PackfileId → Option Bytes)
    (hpackfiles : ∀ id content, packfiles id = some content →
      s.disk.packfiles id = some content) :
    Uploaded P keys { s with
      packing := { s.packing with world := { s.packing.world with
        disk := { s.disk with packfiles := packfiles } } }
      acknowledged := s.acknowledged ++ [acked] } where
  synced := ⟨h.synced.stored, h.synced.bound, h.synced.mark, h.synced.covered⟩
  completed := h.completed
  packfilesDone hdone := by
    obtain ⟨hcompleted, hempty⟩ := h.packfilesDone hdone
    exact ⟨hcompleted, fun id content hid => hempty id content (hpackfiles id content hid)⟩
  indexing := h.indexing
  indexDone := h.indexDone
  ended := h.ended
  delivered a ha := by
    obtain ⟨items, hload, hitems⟩ := h.delivered a ha
    refine ⟨items, hload, ?_⟩
    intro e he
    obtain ⟨b, hb, heq⟩ := hitems e he
    exact ⟨b, List.mem_append_left _ hb, heq⟩
  reported := h.reported

/-- While `pack` can still take a step, `send` has not found the folder empty. -/
theorem Uploaded.notDone (h : Uploaded P keys s)
    (hopen : s.packing.result ≠ none → s.opened = true → False) :
    s.packingCompleted = false ∧ s.sender.packfilesDone = false ∧ s.sender.indexDone = false := by
  have hcompleted : s.packingCompleted = false := by
    by_contra hc
    obtain ⟨hopened, hresult⟩ := h.completed (by simpa using hc)
    exact hopen hresult hopened
  have hpackfiles : s.sender.packfilesDone = false := by
    by_contra hd
    cases hcompleted.symm.trans (h.packfilesDone (by simpa using hd)).1
  refine ⟨hcompleted, hpackfiles, ?_⟩
  by_contra hd
  cases hpackfiles.symm.trans (h.indexDone (by simpa using hd)).1

theorem AtPeers.mono {x x' : IndexSender} {e : IndexEntry}
    (hsub : x.acknowledged ⊆ x'.acknowledged) (h : AtPeers P keys x e) :
    AtPeers P keys x' e := by
  obtain ⟨a, ha, hload⟩ := h
  exact ⟨a, hsub ha, hload⟩

theorem Saved.mono {added added' : List Blob} {x x' : IndexSender} {root : BlobHash}
    (hadded : added ⊆ added') (hsub : x.acknowledged ⊆ x'.acknowledged)
    (h : Saved P keys added x root) : Saved P keys added' x' root := by
  obtain ⟨taken, hwhole, htaken, hentry⟩ := h
  refine ⟨taken, hwhole, fun b hb => hadded (htaken b hb), ?_⟩
  intro b hb
  obtain ⟨id, hid⟩ := hentry b hb
  exact ⟨id, hid.mono hsub⟩

/-- What is known of `pack` does not depend on the packfiles. -/
theorem packOk_of_putBack {p : Packing} {gone : PackfileId → Option Bytes}
    (h : PackOk P (p.putBack gone)) : PackOk P p := by
  have hcalls : CallsKept (p.putBack gone).world.calls p.world.calls := .refl _
  exact ⟨h.children,
    fun node tasks hpc task htask => (h.files node tasks hpc task htask).mono hcalls,
    fun node task hpc => (h.sealing node task hpc).mono hcalls, h.rooted, h.ended, h.result,
    h.hashes⟩

/-- A `pack` that has returned a snapshot can only be called again. -/
theorem isOpen_of_result {p p' : Packing} {b : PackAction} (h : PackOk P p)
    (hresult : p.result ≠ none) (hst : packStep P keys p b = some p') : isOpen b = true := by
  obtain ⟨root, hroot⟩ := Option.ne_none_iff_exists'.mp hresult
  obtain ⟨hpc, hsession, -⟩ := h.result root hroot
  cases b with
  | openManager => rfl
  | call c =>
    obtain ⟨hcall, hst⟩ := Option.ite_none_right_eq_some.mp hst
    obtain ⟨w, hm, -⟩ := Option.map_eq_some_iff.mp hst
    obtain ⟨names, files, size, rfl⟩ := (stepped_of_managerStep hm).session hsession
    cases hcall
  | kill => simp [packStep, managerStep, hsession] at hst
  | _ => simp [packStep, hpc] at hst

/-- A step of `pack`, other than opening its manager after it has returned. -/
theorem Uploaded.packs (hpack : PackOk P s.packing) (h : Uploaded P keys s) {b : PackAction}
    {p : Packing} (hopen : s.opened = true → isOpen b = false)
    (hst : packStep P keys s.packing b = some p) :
    Uploaded P keys { s with packing := p, opened := true } := by
  obtain ⟨hcompleted, hpackfiles, hindex⟩ := h.notDone fun hresult hopened => by
    cases (hopen hopened).symm.trans (isOpen_of_result hpack hresult hst)
  have hno : ∀ {b : Bool}, b = false → ¬ b = true := by
    rintro _ rfl h
    cases h
  have hfolder : Synced p.world s.index ∧ s.packing.world.added ⊆ p.world.added := by
    obtain ⟨-, hw | ⟨c, hm, -⟩⟩ := packOk_step hpack hst
    · exact ⟨hw ▸ h.synced, hw ▸ List.Subset.refl _⟩
    · exact ⟨h.synced.manager hm, added_subset_managerStep hm⟩
  exact ⟨hfolder.1, fun hc => absurd hc (hno hcompleted), fun hd => absurd hd (hno hpackfiles),
    h.indexing, fun hd => absurd hd (hno hindex), h.ended, h.delivered,
    fun root hroot => (h.reported root hroot).mono hfolder.2 (List.Subset.refl _)⟩

theorem serializePackfile_ne_nil {id : PackfileId} {draft : PackfileDraft} :
    serializePackfile P keys id draft ≠ some [] := by
  intro h
  obtain ⟨header, -, hnil⟩ := Option.map_eq_some_iff.mp h
  have hlen := congrArg List.length hnil
  simp at hlen

/-- Once the folder has been found empty, `pack` has ended and all index files load. -/
theorem Uploaded.settled (hpacked : Packed P keys s) (h : Uploaded P keys s)
    (hdone : s.sender.packfilesDone = true) : s.packing.world.session = none ∧
      ∀ f ∈ s.disk.index, ∃ items, loadFile P keys f.1 f.2 = .ok items := by
  obtain ⟨-, hresult⟩ := h.completed (h.packfilesDone hdone).1
  obtain ⟨root, hroot⟩ := Option.ne_none_iff_exists'.mp hresult
  obtain ⟨-, hsession, hflushed, -⟩ := hpacked.pack.pack.result root hroot
  exact ⟨hsession, hpacked.loads hflushed⟩

/-- Then the packfile of every entry has been acknowledged. -/
theorem Uploaded.entry_acknowledged (hpacked : Packed P keys s) (h : Uploaded P keys s)
    (hdone : s.sender.packfilesDone = true) {e : IndexEntry}
    (he : InFolder P keys s.disk.index e) : ∃ b ∈ s.acknowledged, b.2.1 = e.2 := by
  obtain ⟨draft, buffer, hbuffer, hser, -⟩ := hpacked.pack.sound.stored e he
  rw [whole_packfiles] at hbuffer
  cases hdisk : s.disk.packfiles e.2 with
  | some content =>
    -- what is left in the folder is empty, and no packfile is
    obtain rfl := (h.packfilesDone hdone).2 _ _ hdisk
    rw [hdisk, Option.some_or, Option.some.injEq] at hbuffer
    exact absurd (hbuffer ▸ hser) serializePackfile_ne_nil
  | none =>
    rw [hdisk, Option.none_or] at hbuffer
    obtain ⟨peer, hmem⟩ := gone_eq_some hbuffer
    exact ⟨_, hmem, rfl⟩

theorem Uploaded.sendIndex (hpacked : Packed P keys s) (h : Uploaded P keys s)
    (hpc : s.sender.pc = .indexing) (peer : ClientId) {listing : Option (List DirItem)}
    (io : ℕ → IndexIo) (hlists : ∀ items ∈ listing, Lists s.disk.index items ∧
      (numbersAbove s.index.highestSentIndex items).Pairwise (· < ·)) :
    Uploaded P keys { s with
      index := (Client.sendIndex peer listing io s.index).1
      sender := { s.sender with pc := .top } } ∧
    ((Client.sendIndex peer listing io s.index).2 = .ok () → ∀ f ∈ s.disk.index, ∀ num,
      parseIndexPathIntoId f.1 = some num →
        Acknowledged (Client.sendIndex peer listing io s.index).1 num f.2) := by
  have hdone := h.indexing hpc
  obtain ⟨hsession, hloads⟩ := h.settled hpacked hdone
  have hnumbered : Numbered s.disk.index := hpacked.pack.sound.numbered
  have hfrom : SendsFrom s.disk.index s.index (Client.sendIndex peer listing io s.index).1 :=
    .call fun items hitems => (hlists items hitems).1
  obtain ⟨hsynced, hall⟩ := h.synced.send hnumbered hsession peer io hlists
  refine ⟨⟨hsynced, h.completed, fun _ => h.packfilesDone hdone, fun hpc => (by cases hpc), ?_,
    fun hpc => (by cases hpc), ?_, ?_⟩, hall⟩
  · intro hindex
    refine ⟨hdone, ?_⟩
    intro f hf num hparse
    obtain ⟨peer, hmem⟩ := (h.indexDone hindex).2 f hf num hparse
    exact ⟨peer, hfrom.old hmem⟩
  · intro a ha
    rcases hfrom.new a ha with ha | ⟨name, hmem, hparse⟩
    · exact h.delivered a ha
    · obtain ⟨num, hmax, hname⟩ := hnumbered _ hmem
      obtain rfl : name = indexFileName num := hname
      rw [parseIndexPathIntoId_indexFileName hmax, Option.some.injEq] at hparse
      obtain ⟨items, hload⟩ := hloads _ hmem
      refine ⟨items, hparse ▸ hload, ?_⟩
      intro e he
      exact h.entry_acknowledged hpacked hdone ⟨_, hmem, items, hload, he⟩
  · intro root hroot
    exact (h.reported root hroot).mono (List.Subset.refl _) hfrom.old

/-- `get_size` has found the folder empty, or not. -/
theorem Uploaded.sized (h : Uploaded P keys s) (hcompleted : s.packingCompleted = true) {n : ℕ}
    (hoccupies : s.disk.Occupies n) : Uploaded P keys { s with sender :=
      { s.sender with packfilesDone := s.sender.packfilesDone || decide (n = 0) }.rest } := by
  refine h.setSender ?_ ?_ Sender.rest_indexing Sender.rest_ended
  · intro hdone
    refine ⟨hcompleted, ?_⟩
    rcases Bool.or_eq_true _ _ ▸ hdone with hold | hzero
    · exact (h.packfilesDone hold).2
    · intro id content hid
      obtain rfl : n = 0 := of_decide_eq_true hzero
      exact List.length_eq_zero_iff.mp (Nat.le_zero.mp (hoccupies.le hid))
  · intro hindex
    obtain ⟨hold, hall⟩ := h.indexDone hindex
    exact ⟨Bool.or_eq_true _ _ ▸ Or.inl hold, hall⟩

theorem Uploaded.send (hpacked : Packed P keys s) (h : Uploaded P keys s) {e : SendEvent}
    (hsane : Sane s (.send e)) (hst : sendStep s e = some s') : Uploaded P keys s' := by
  cases sends_of_sendStep hst with
  | begins => exact h.setSender nofun nofun nofun nofun
  | moves _ x hpackfiles hindex hindexing hended => exact h.setPc hpackfiles hindex hindexing hended
  | removes peer id content =>
    refine h.acked (peer, id, content) _ ?_
    intro id' content' hid'
    by_cases hid : id' = id
    · subst hid
      simp at hid'
    · rwa [Function.update_of_ne hid] at hid'
  | leaves peer id content =>
    have hacked := h.acked (peer, id, content) s.disk.packfiles fun _ _ hid => hid
    exact hacked.setPc rfl rfl nofun nofun
  | sizes n hcompleted =>
    have hoccupies : s.disk.Occupies n := hsane n rfl
    exact h.sized hcompleted hoccupies
  | indexes peer listing io index hpc hsend =>
    obtain ⟨hsent, hall⟩ := h.sendIndex hpacked hpc peer io hsane
    rw [hsend] at hsent hall
    have hdone := h.indexing hpc
    exact hsent.setSender (fun _ => h.packfilesDone hdone) (fun _ => ⟨hdone, hall rfl⟩)
      Sender.rest_indexing Sender.rest_ended
  | stops peer listing io index hpc hsend =>
    obtain ⟨hsent, -⟩ := h.sendIndex hpacked hpc peer io hsane
    rw [hsend] at hsent
    exact hsent.setPc rfl rfl nofun nofun

/-- When `send` has returned `Ok`, all that `pack` has taken has an entry at the peers. -/
theorem Uploaded.saved (hpacked : Packed P keys s) (h : Uploaded P keys s)
    (hpc : s.sender.pc = .ended true) {root : BlobHash} (hroot : s.packing.result = some root) :
    Saved P keys s.packing.world.added s.index root := by
  obtain ⟨-, -, hflushed, hwhole⟩ := hpacked.pack.pack.result root hroot
  refine ⟨Taken s.whole.world, hwhole, ?_, ?_⟩
  · rintro b ⟨c, hc, rfl, -⟩
    exact List.mem_map.mpr ⟨c, List.mem_append_right _ hc, rfl⟩
  · rintro b ⟨c, hc, rfl, hacc⟩
    obtain ⟨id, f, hf, items, hload, hmem⟩ :=
      hpacked.accounted.flushed hflushed c hc (AddPc.accepted_iff.mp hacc).1
    obtain ⟨num, hmax, hname⟩ := hpacked.pack.sound.numbered f hf
    have hparse : parseIndexPathIntoId f.1 = some num := by
      rw [hname, parseIndexPathIntoId_indexFileName hmax]
    obtain ⟨peer, hack⟩ := (h.indexDone (h.ended hpc)).2 f hf num hparse
    exact ⟨id, (peer, num, f.2), hack, items, hname ▸ hload, hmem⟩

/-- The variables of `run` and `send` begin again, or are lost with the process. -/
theorem Uploaded.restart (h : Uploaded P keys s) (running opened : Bool) (bytes : ℕ)
    (completed : Bool) (hcompleted : completed = true → opened = true ∧ s.packing.result ≠ none) :
    Uploaded P keys { s with
      running := running, opened := opened, packfileBytesWritten := bytes
      packingCompleted := completed, sender := .notSpawned } :=
  { h with
    completed := hcompleted
    packfilesDone := nofun
    indexing := nofun
    indexDone := nofun
    ended := nofun }

theorem uploaded_step (hpacked : Packed P keys s) (h : Uploaded P keys s) (hsane : Sane s a)
    (hst : step P keys s a = some s') : Uploaded P keys s' := by
  have hpack : PackOk P s.packing := packOk_of_putBack hpacked.pack.pack
  cases a with
  | begin =>
    obtain ⟨-, hst⟩ := Option.ite_none_left_eq_some.mp hst
    exact Option.some.inj hst ▸ h.restart true false 0 false nofun
  | pack b =>
    obtain ⟨⟨-, hopened⟩, hst⟩ := Option.ite_none_right_eq_some.mp hst
    obtain ⟨p, hp, rfl⟩ := Option.map_eq_some_iff.mp hst
    refine h.packs hpack ?_ hp
    intro hopen
    simpa [hopen] using hopened
  | complete =>
    obtain ⟨⟨-, hopened, -, hresult⟩, hst⟩ := Option.ite_none_right_eq_some.mp hst
    obtain rfl := Option.some.inj hst
    exact { h with
      completed := fun _ => ⟨hopened, hresult⟩
      packfilesDone := fun hdone => ⟨rfl, (h.packfilesDone hdone).2⟩ }
  | written bytes | matched time =>
    obtain rfl := Option.some.inj hst
    exact { h with }
  | send e => exact h.send hpacked hsane hst
  | report =>
    obtain ⟨root, hroot, hpc, rfl⟩ := reported_of_report hst
    have hsaved := h.saved hpacked hpc hroot
    exact { h with reported := List.forall_mem_cons.mpr ⟨hsaved, h.reported⟩ }
  | abort =>
    simp only [step] at hst
    split at hst
    · obtain ⟨-, hst⟩ := Option.ite_none_right_eq_some.mp hst
      obtain rfl := Option.some.inj hst
      exact { h with }
    · cases hst
  | kill =>
    simp only [step] at hst
    cases hsession : s.packing.world.session with
    | none =>
      rw [hsession] at hst
      exact Option.some.inj hst ▸ h.restart false s.opened _ s.packingCompleted h.completed
    | some x =>
      rw [hsession] at hst
      obtain ⟨p, hp, rfl⟩ := Option.map_eq_some_iff.mp hst
      -- the session is open, so `pack` has not returned
      obtain ⟨hcompleted, -, -⟩ := h.notDone fun hresult _ =>
        absurd (isOpen_of_result hpack hresult hp) (by simp [isOpen])
      have hpacks : Uploaded P keys { s with packing := p, opened := true } :=
        (Uploaded.packs (s := s) hpack h (fun _ => rfl) hp)
      exact hpacks.restart false s.opened _ s.packingCompleted fun hc => by
        rw [hcompleted] at hc
        cases hc

/-! ## 5. Every run -/

/-- In every run the folder and `send` are in order. -/
theorem uploaded_run (hP : P.Lawful) (hrej : P.RejectsTruncated)
    (h : Reach (step P keys) Sane .start s) : Packed P keys s ∧ Uploaded P keys s := by
  refine h.invariant (I := fun s => Packed P keys s ∧ Uploaded P keys s)
    ⟨packed_start, uploaded_start⟩ ?_
  rintro s a s' ⟨hpacked, huploaded⟩ hsane hst
  exact ⟨packed_step hP hrej hpacked hsane (effect_of_step hst),
    uploaded_step hpacked huploaded hsane hst⟩

/-- In the folder with all packfiles a backup is a run of `pack` alone: sending never disturbs the
packer, whatever is sent, deleted or left behind, and whenever. -/
theorem upload_refines_pack (hP : P.Lawful) (hrej : P.RejectsTruncated)
    (h : Reach (step P keys) Sane .start s) :
    Reach (packStep P keys) LosesNone .start s.whole := by
  have hinv : ∀ s a s', Packed P keys s → Sane s a → step P keys s a = some s' →
      Packed P keys s' := fun _ _ _ hpacked hsane hst =>
    packed_step hP hrej hpacked hsane (effect_of_step hst)
  have hsim : ∀ s a s', Packed P keys s → Sane s a → step P keys s a = some s' →
      Transition.Follows (packStep P keys) LosesNone s.whole s'.whole :=
    fun _ _ _ hpacked hsane hst => whole_follows hpacked.consistent hsane (effect_of_step hst)
  obtain ⟨-, hreach⟩ := h.simulates packed_start hinv hsim
  exact hreach

/-- In every state, also after errors and restarts, each entry of a local index file leads to its
blob in a packfile that is still in the folder or was acknowledged as it is; and what peers have of
the index is of the folder, with the packfiles of its entries at peers too. -/
theorem index_entries_kept (hP : P.Lawful) (hrej : P.RejectsTruncated)
    (h : Reach (step P keys) Sane .start s) :
    (∀ e, InFolder P keys s.disk.index e → ∃ b ∈ s.packing.world.added, b.hash = e.1 ∧
      ∃ buffer, (s.disk.packfiles e.2 = some buffer ∨
        ∃ peer, (peer, e.2, buffer) ∈ s.acknowledged) ∧
        readBlob P keys e.2 buffer e.1 = .ok b) ∧
    ∀ a ∈ s.index.acknowledged, (indexFileName a.2.1, a.2.2) ∈ s.disk.index ∧
      ∃ items, loadFile P keys (indexFileName a.2.1) a.2.2 = .ok items ∧
        ∀ e ∈ items, ∃ b ∈ s.acknowledged, b.2.1 = e.2 := by
  obtain ⟨hpacked, huploaded⟩ := uploaded_run hP hrej h
  constructor
  · intro e he
    obtain ⟨draft, buffer, hbuffer, -, -, b, hb, -, hhash, hread⟩ :=
      hpacked.pack.sound.stored e he
    refine ⟨b, hb, hhash, buffer, ?_, hread⟩
    rw [whole_packfiles] at hbuffer
    rcases hdisk : s.disk.packfiles e.2 with _ | content
    · rw [hdisk, Option.none_or] at hbuffer
      exact Or.inr (gone_eq_some hbuffer)
    · rw [hdisk, Option.some_or] at hbuffer
      exact Or.inl hbuffer
  · intro a ha
    exact ⟨(huploaded.synced.stored a ha).2, huploaded.delivered a ha⟩

/-- The folder holds what the peers have acknowledged: the packfiles among others, and the index
files. -/
structure HoldsAcknowledged (s : State) (disk : Disk) : Prop where
  packfiles : ∀ a ∈ s.acknowledged, disk.packfiles a.2.1 = some a.2.2
  index : ∀ f, f ∈ disk.index ↔ ∃ a ∈ s.index.acknowledged, f = (indexFileName a.2.1, a.2.2)

/-- An entry at the peers leads to its blob. -/
theorem Uploaded.readable (hpacked : Packed P keys s) (h : Uploaded P keys s) {disk : Disk}
    (hdisk : HoldsAcknowledged s disk) {e : IndexEntry} (he : InFolder P keys disk.index e) :
    ∃ b ∈ s.packing.world.added, b.hash = e.1 ∧ ∃ buffer, disk.packfiles e.2 = some buffer ∧
      readBlob P keys e.2 buffer e.1 = .ok b := by
  obtain ⟨f, hf, items, hload, hmem⟩ := he
  obtain ⟨a, ha, rfl⟩ := (hdisk.index f).mp hf
  obtain ⟨items', hload', hpackfiles⟩ := h.delivered a ha
  obtain rfl := Except.ok.inj (hload'.symm.trans hload)
  obtain ⟨x, hx, hid⟩ := hpackfiles e hmem
  obtain ⟨-, hstored⟩ := h.synced.stored a ha
  obtain ⟨draft, buffer, hbuffer, -, -, b, hb, -, hhash, hread⟩ :=
    hpacked.pack.sound.stored e ⟨_, hstored, items', hload, hmem⟩
  -- the packfile that was acknowledged is the one that was written
  have hcontent := hpacked.consistent x hx
  rw [hid, hbuffer, Option.some.injEq] at hcontent
  refine ⟨b, hb, hhash, buffer, ?_, hread⟩
  rw [← hid, hdisk.packfiles x hx, hcontent]

/-- From the files at the peers the index loads, and it leads to every blob of a snapshot that was
reported. -/
theorem Uploaded.found (hpacked : Packed P keys s) (h : Uploaded P keys s) {disk : Disk}
    (hdisk : HoldsAcknowledged s disk) (names : List FileName) {files : Folder}
    (hf : files.Perm disk.index) :
    ∃ ix, BlobIndex.new P keys names files = .ok ix ∧ ∀ root ∈ s.reported,
      ∃ taken : Blob → Prop, Whole P taken root ∧
        (∀ b, taken b → b ∈ s.packing.world.added) ∧
        ∀ b, taken b → ∃ b' ∈ s.packing.world.added, b'.hash = b.hash ∧
          Manager.getBlob P keys ix disk b.hash = .ok (some b') := by
  have hloads : ∀ f ∈ files, ∃ items, loadFile P keys f.1 f.2 = .ok items := by
    intro f hmem
    obtain ⟨a, ha, rfl⟩ := (hdisk.index f).mp (hf.mem_iff.mp hmem)
    obtain ⟨items, hload, -⟩ := h.delivered a ha
    exact ⟨items, hload⟩
  obtain ⟨items, hitems⟩ := loadFiles_ok hloads
  obtain ⟨ix, hnew⟩ : ∃ ix, BlobIndex.new P keys names files = .ok ix := by
    simp only [BlobIndex.new, hitems]
    exact ⟨_, rfl⟩
  refine ⟨ix, hnew, ?_⟩
  intro root hroot
  obtain ⟨taken, hwhole, hsub, hentry⟩ := h.reported root hroot
  refine ⟨taken, hwhole, hsub, ?_⟩
  intro b₀ hb₀
  obtain ⟨id₀, a, ha, items, hload, hmem⟩ := hentry b₀ hb₀
  have hin : InFolder P keys disk.index (b₀.hash, id₀) :=
    ⟨_, (hdisk.index _).mpr ⟨a, ha, rfl⟩, items, hload, hmem⟩
  obtain ⟨id, hfind, hid⟩ | ⟨-, hnone⟩ := findPackfile_new hf hnew b₀.hash
  · obtain ⟨b, hb, hhash, buffer, hbuffer, hread⟩ := h.readable hpacked hdisk hid
    refine ⟨b, hb, hhash, ?_⟩
    simp only [Manager.getBlob, hfind, hbuffer, hread]
    rfl
  · exact absurd hin (hnone id₀)

/-- From what the peers have acknowledged, every snapshot that was ever reported can be restored:
the index loads, and every blob that is reachable from the snapshot is found. -/
theorem reported_restorable (hP : P.Lawful) (hrej : P.RejectsTruncated)
    (h : Reach (step P keys) Sane .start s)
    (hinj : Set.InjOn P.hash {data | ∃ b ∈ s.packing.world.added, b.data = data})
    {disk : Disk} (hdisk : HoldsAcknowledged s disk) (names : List FileName) {files : Folder}
    (hf : files.Perm disk.index) :
    ∃ ix, BlobIndex.new P keys names files = .ok ix ∧ ∀ root ∈ s.reported, ∀ role hash,
      Reaches s.packing.world.added root role hash →
        ∃ b ∈ s.packing.world.added, b.hash = hash ∧
          Manager.getBlob P keys ix disk hash = .ok (some b) := by
  obtain ⟨hpacked, huploaded⟩ := uploaded_run hP hrej h
  obtain ⟨ix, hnew, hfound⟩ := huploaded.found hpacked hdisk names hf
  refine ⟨ix, hnew, ?_⟩
  intro root hroot role hash hreach
  obtain ⟨taken, hwhole, hsub, hget⟩ := hfound root hroot
  obtain ⟨b₀, hb₀, rfl⟩ :=
    (hreach.roleTaken hinj hpacked.pack.pack.hashes hsub hwhole).taken
  exact hget b₀ hb₀

/-- When no two blobs have the same hash, each is found under its own. -/
theorem storeOf_of_injOn {added : List Blob} (hinj : Set.InjOn Blob.hash {b | b ∈ added})
    {b : Blob} (hb : b ∈ added) : storeOf added b.hash = .ok (some b) := by
  cases hfind : added.find? fun b' => b'.hash = b.hash with
  | none => exact absurd (List.find?_eq_none.mp hfind b hb) (by simp)
  | some b' =>
    have hhash : b'.hash = b.hash := by simpa using List.find?_some hfind
    rw [storeOf, hfind, hinj (List.mem_of_find?_eq_some hfind) hb hhash]

/-- The unpacker cannot tell what the peers have acknowledged from a store of all blobs. -/
theorem Uploaded.unpacks (hpacked : Packed P keys s) (h : Uploaded P keys s)
    (hinj : Set.InjOn Blob.hash {b | b ∈ s.packing.world.added})
    {disk : Disk} (hdisk : HoldsAcknowledged s disk) (names : List FileName) {files : Folder}
    (hf : files.Perm disk.index) :
    ∃ ix, BlobIndex.new P keys names files = .ok ix ∧ ∀ root ∈ s.reported,
      ∃ n, ∀ fuel, n ≤ fuel → ∀ (io : IoFaults) (start : Dest)
        (schedule : List (Tree × FsPath) → List (Tree × FsPath)), (∀ l, (schedule l).Perm l) →
        io.unpack start (Manager.getBlob P keys ix disk) schedule fuel root
            = io.unpack start (storeOf s.packing.world.added) schedule fuel root ∧
          ∀ e, io.unpack start (Manager.getBlob P keys ix disk) schedule fuel root = .error e →
            e = .ioError := by
  obtain ⟨ix, hnew, hfound⟩ := h.found hpacked hdisk names hf
  refine ⟨ix, hnew, ?_⟩
  intro root hroot
  obtain ⟨taken, hwhole, hsub, hget⟩ := hfound root hroot
  refine hwhole.unpacks ?_ fun b hb => storeOf_of_injOn hinj (hsub b hb)
  intro b hb
  obtain ⟨b', hb', hhash, hgets⟩ := hget b hb
  rw [hgets, hinj hb' (hsub b hb) hhash]

/-- `unpack` of a snapshot that was ever reported, from what the peers have acknowledged, leaves
what it would from a store of all blobs: it ends, no blob is missing on the way, and only a failing
call of the file system keeps it from succeeding. -/
theorem reported_unpacks (hP : P.Lawful) (hrej : P.RejectsTruncated)
    (h : Reach (step P keys) Sane .start s)
    (hinj : Set.InjOn Blob.hash {b | b ∈ s.packing.world.added})
    {disk : Disk} (hdisk : HoldsAcknowledged s disk) (names : List FileName) {files : Folder}
    (hf : files.Perm disk.index) :
    ∃ ix, BlobIndex.new P keys names files = .ok ix ∧ ∀ root ∈ s.reported,
      ∃ n, ∀ fuel, n ≤ fuel → ∀ (io : IoFaults) (start : Dest)
        (schedule : List (Tree × FsPath) → List (Tree × FsPath)), (∀ l, (schedule l).Perm l) →
        io.unpack start (Manager.getBlob P keys ix disk) schedule fuel root
            = io.unpack start (storeOf s.packing.world.added) schedule fuel root ∧
          ∀ e, io.unpack start (Manager.getBlob P keys ix disk) schedule fuel root = .error e →
            e = .ioError := by
  obtain ⟨hpacked, huploaded⟩ := uploaded_run hP hrej h
  exact huploaded.unpacks hpacked hinj hdisk names hf

end

/-! ## 6. A backup that is reported -/

section

/-- The one file of `packOneFile` is packed, and the packfile is sent and deleted. -/
def packAndSend : List Action :=
  [.begin, .pack (.openManager [] [] 0 [.root])] ++ packOneFile.map .pack ++
    [.complete, .send .begin, .send .load, .send (.connect (some (FixedBytes.fill 1))),
      .send (.acked (FixedBytes.fill 9) true), .send .listed]

/-- All index files are listed, and none fails. -/
def indexAll (index : Folder) : SendEvent :=
  .index (some (index.map fun f => .file f.1 f.2)) fun _ => ⟨true, true, true, true, true, true⟩

/-- Packfiles are only written under one id, and before any of that id is sent. -/
def oneId (s : State) : Action → Bool
  | .pack (.call (.write _ _)) => false
  | .pack a => a.packfileId.all fun id => decide (id = FixedBytes.fill 9 ∧ s.gone id = none)
  | .send (.getSize _) => false
  | .send (.index _ _) => false
  | _ => true

theorem oneId_pack {s : State} {b : PackAction} {id : PackfileId}
    (h : oneId s (.pack b) = true) (hid : b.packfileId = some id) :
    id = FixedBytes.fill 9 ∧ s.gone id = none := by
  have hall : b.packfileId.all (fun id => decide (id = FixedBytes.fill 9 ∧ s.gone id = none))
      = true := by
    cases b with
    | call c =>
      cases c with
      | write => cases h
      | _ => exact h
    | _ => exact h
  rw [hid] at hall
  exact of_decide_eq_true hall

theorem sane_of_oneId {s : State} {a : Action} (h : oneId s a = true) : Sane s a := by
  cases a with
  | pack b =>
    constructor
    · cases b with
      | call c =>
        cases c with
        | write => cases h
        | _ => exact trivial
      | _ => exact trivial
    · intro id hid
      exact (oneId_pack h hid).2
  | send e =>
    cases e with
    | getSize | index => cases h
    | _ => exact trivial
  | _ => exact trivial

theorem packfiles_of_oneId {P : Primitives} {keys : KeyManager} {s s' : State} {a : Action}
    (hnone : ∀ id, id ≠ FixedBytes.fill 9 → s.disk.packfiles id = none)
    (hone : oneId s a = true) (hst : step P keys s a = some s') :
    ∀ id, id ≠ FixedBytes.fill 9 → s'.disk.packfiles id = none := by
  intro id hid
  cases effect_of_step hst with
  | controls _ _ hsame =>
    rw [State.disk, hsame.packing]
    exact hnone id hid
  | packs _ b p _ hb hpack hsame =>
    rw [State.disk, hsame.packing]
    refine (gains_of_packStep hpack).absent ?_ (hnone id hid)
    rcases hb with rfl | ⟨-, rfl⟩
    · intro hb
      exact hid (oneId_pack hone hb).1
    · simp [PackAction.packfileId]
  | acks peer id' content removed packfiles _ hsome hother _ hsame =>
    rw [State.disk, hsame.packing]
    by_cases hid' : id = id'
    · subst hid'
      rw [hnone id hid] at hsome
      cases hsome
    · exact (hother id hid').trans (hnone id hid)
  | indexes peer listing io _ _ hsame =>
    rw [State.disk, hsame.packing]
    exact hnone id hid

theorem packAndSend_ok : (runWhen (step .transparent sampleKeys) oneId .start packAndSend).any
    (fun s => (s.disk.packfiles (FixedBytes.fill 9)).isNone &&
      (step .transparent sampleKeys s (.send (.getSize (some 0)))).any fun s₁ =>
        decide ((numbersAbove s₁.index.highestSentIndex
          (s₁.disk.index.map fun f => .file f.1 f.2)).Pairwise (· < ·)) &&
        (run (step .transparent sampleKeys) s₁ [.send (indexAll s₁.disk.index), .report]).any
          fun s₂ => !s₂.reported.isEmpty &&
            decide (∀ a ∈ s₂.packing.world.added, ∀ b ∈ s₂.packing.world.added,
              Primitives.transparent.hash a.data = Primitives.transparent.hash b.data →
                a.data = b.data) &&
            decide (∀ a ∈ s₂.packing.world.added, ∀ b ∈ s₂.packing.world.added,
              a.hash = b.hash → a = b) &&
            decide (∀ a ∈ s₂.acknowledged, s₂.gone a.2.1 = some a.2.2)) = true := by
  decide +kernel

/-- The folder is found empty, the index files are sent, and the snapshot is reported. -/
def packAndReport : Option State :=
  ((run (step .transparent sampleKeys) .start packAndSend).bind fun s =>
    step .transparent sampleKeys s (.send (.getSize (some 0)))).bind fun s =>
      run (step .transparent sampleKeys) s [.send (indexAll s.disk.index), .report]

/-- The run, with the backup reported; its first steps may pass one more check. -/
theorem packAndSend_reachWhen (more : State → Action → Bool)
    (hmore : (runWhen (step .transparent sampleKeys) (fun s a => oneId s a && more s a) .start
      packAndSend).isSome = true)
    (hsend : ∀ s e, more s (.send e) = true) (hreport : ∀ s, more s .report = true) :
    ∃ s : State, packAndReport = some s ∧
      Reach (step .transparent sampleKeys) (fun s a => Sane s a ∧ more s a = true) .start s ∧
      s.reported ≠ [] ∧
      Set.InjOn Primitives.transparent.hash {data | ∃ b ∈ s.packing.world.added, b.data = data} ∧
      Set.InjOn Blob.hash {b | b ∈ s.packing.world.added} ∧
      ∀ a ∈ s.acknowledged, s.gone a.2.1 = some a.2.2 := by
  obtain ⟨s, hrun, hs⟩ := (Option.any_eq_true _ _).mp packAndSend_ok
  obtain ⟨s', hrun'⟩ := Option.isSome_iff_exists.mp hmore
  obtain rfl : s = s' := by
    have hweak := runWhen_mono (fun _ _ h => (Bool.and_eq_true_iff.mp h).1) hrun'
    exact Option.some.inj (hrun.symm.trans hweak)
  obtain ⟨hnine, hs⟩ := Bool.and_eq_true_iff.mp hs
  obtain ⟨s₁, hsize, hs₁⟩ := (Option.any_eq_true _ _).mp hs
  obtain ⟨hasc, hs₁⟩ := Bool.and_eq_true_iff.mp hs₁
  obtain ⟨s₂, hrest, hs₂⟩ := (Option.any_eq_true _ _).mp hs₁
  simp only [Bool.and_eq_true, decide_eq_true_eq] at hs₂
  obtain ⟨⟨⟨hreported, hinj⟩, hblobs⟩, hgone⟩ := hs₂
  -- the folder of packfiles is empty, as `get_size` has said
  have hone : Reach (step .transparent sampleKeys)
      (fun s a => oneId s a = true ∧ more s a = true) .start s :=
    reach_of_runWhen (fun _ _ h => Bool.and_eq_true_iff.mp h) hrun'
  have hempty : ∀ id, s.disk.packfiles id = none := by
    intro id
    by_cases hid : id = FixedBytes.fill 9
    · rw [hid]
      exact Option.isNone_iff_eq_none.mp hnine
    · exact hone.invariant (I := fun s => ∀ id, id ≠ FixedBytes.fill 9 →
        s.disk.packfiles id = none) (fun _ _ => rfl)
        (fun _ _ _ hnone ha => packfiles_of_oneId hnone ha.1) id hid
  have hoccupies : s.disk.Occupies 0 := ⟨∅, by simp [hempty], rfl⟩
  have hsize' : Sane s (.send (.getSize (some 0))) := by
    rintro n hn
    cases hn
    exact hoccupies
  have hindex : Sane s₁ (.send (indexAll s₁.disk.index)) := by
    rintro items hitems
    cases hitems
    refine ⟨?_, of_decide_eq_true hasc⟩
    rw [Lists, List.filterMap_map]
    exact .of_eq (List.filterMap_some ..)
  obtain ⟨s₃, hsent, hlast⟩ := Option.bind_eq_some_iff.mp (run_cons _ _ _ _ ▸ hrest)
  have hreach : Reach (step .transparent sampleKeys) (fun s a => Sane s a ∧ more s a = true)
      .start s₂ :=
    ((hone.mono fun _ _ h => ⟨sane_of_oneId h.1, h.2⟩).tail _ ⟨hsize', hsend _ _⟩ hsize).trans
      (.head _ ⟨hindex, hsend _ _⟩ hsent (reach_of_run (by simp [Sane, hreport]) hlast))
  have hsteps : packAndReport = some s₂ := by
    obtain ⟨hall, -⟩ := meets_of_runWhen (fun _ _ (_ : _ = true) => trivial) hrun
    rw [packAndReport, hall, Option.bind_some, hsize, Option.bind_some, hrest]
  refine ⟨s₂, hsteps, hreach, ?_, ?_, fun a ha b hb => hblobs a ha b hb, hgone⟩
  · rintro hnil
    simp [hnil] at hreported
  · rintro _ ⟨a, ha, rfl⟩ _ ⟨b, hb, rfl⟩ h
    exact hinj a ha b hb h

theorem packAndSend_reach : ∃ s : State, Reach (step .transparent sampleKeys) Sane .start s ∧
    s.reported ≠ [] ∧
    Set.InjOn Primitives.transparent.hash {data | ∃ b ∈ s.packing.world.added, b.data = data} ∧
    Set.InjOn Blob.hash {b | b ∈ s.packing.world.added} ∧
    ∀ a ∈ s.acknowledged, s.gone a.2.1 = some a.2.2 := by
  obtain ⟨s₀, hrun, -⟩ := (Option.any_eq_true _ _).mp packAndSend_ok
  obtain ⟨s, -, hreach, hs⟩ := packAndSend_reachWhen (fun _ _ => true)
    (by simp only [Bool.and_true]; exact Option.isSome_iff_exists.mpr ⟨s₀, hrun⟩)
    (fun _ _ => rfl) fun _ => rfl
  exact ⟨s, hreach.mono fun _ _ h => h.1, hs⟩

theorem upload_refines_pack_one : ∃ s : State, s.reported ≠ [] ∧
    Reach (packStep .transparent sampleKeys) LosesNone .start s.whole := by
  obtain ⟨s, hreach, hreported, -⟩ := packAndSend_reach
  exact ⟨s, hreported, upload_refines_pack Primitives.transparent_lawful
    Primitives.transparent_rejectsTruncated hreach⟩

theorem index_entries_kept_one : ∃ s : State, s.reported ≠ [] ∧
    ∀ a ∈ s.index.acknowledged, (indexFileName a.2.1, a.2.2) ∈ s.disk.index ∧
      ∃ items, loadFile .transparent sampleKeys (indexFileName a.2.1) a.2.2 = .ok items ∧
        ∀ e ∈ items, ∃ b ∈ s.acknowledged, b.2.1 = e.2 := by
  obtain ⟨s, hreach, hreported, -⟩ := packAndSend_reach
  exact ⟨s, hreported, (index_entries_kept Primitives.transparent_lawful
    Primitives.transparent_rejectsTruncated hreach).2⟩

/-- Its root is reported, and what is reachable from it is found at the peer. -/
theorem reported_restorable_one : ∃ (s : State) (root : BlobHash) (disk : Disk) (ix : BlobIndex),
    root ∈ s.reported ∧ HoldsAcknowledged s disk ∧
    BlobIndex.new .transparent sampleKeys [] disk.index = .ok ix ∧
    ∀ role hash, Reaches s.packing.world.added root role hash →
      ∃ b ∈ s.packing.world.added, b.hash = hash ∧
        Manager.getBlob .transparent sampleKeys ix disk hash = .ok (some b) := by
  obtain ⟨s, hreach, hreported, hinj, -, hgone⟩ := packAndSend_reach
  let disk : Disk :=
    ⟨s.gone, s.index.acknowledged.map fun a => (indexFileName a.2.1, a.2.2)⟩
  have hdisk : HoldsAcknowledged s disk := ⟨hgone, by simp [disk, eq_comm]⟩
  obtain ⟨ix, hnew, hfound⟩ := reported_restorable Primitives.transparent_lawful
    Primitives.transparent_rejectsTruncated hreach hinj hdisk [] (.refl _)
  obtain ⟨root, hroot⟩ := List.exists_mem_of_ne_nil _ hreported
  exact ⟨s, root, disk, ix, hroot, hdisk, hnew, hfound root hroot⟩

/-- And it is unpacked from there. -/
theorem reported_unpacks_one : ∃ (s : State) (root : BlobHash) (disk : Disk) (ix : BlobIndex),
    root ∈ s.reported ∧ HoldsAcknowledged s disk ∧
    BlobIndex.new .transparent sampleKeys [] disk.index = .ok ix ∧
    ∃ n, ∀ fuel, n ≤ fuel → ∀ (io : IoFaults) (start : Dest),
      io.unpack start (Manager.getBlob .transparent sampleKeys ix disk) id fuel root
          = io.unpack start (storeOf s.packing.world.added) id fuel root ∧
        ∀ e, io.unpack start (Manager.getBlob .transparent sampleKeys ix disk) id fuel root
          = .error e → e = .ioError := by
  obtain ⟨s, hreach, hreported, -, hinj, hgone⟩ := packAndSend_reach
  let disk : Disk :=
    ⟨s.gone, s.index.acknowledged.map fun a => (indexFileName a.2.1, a.2.2)⟩
  have hdisk : HoldsAcknowledged s disk := ⟨hgone, by simp [disk, eq_comm]⟩
  obtain ⟨ix, hnew, hunpacks⟩ := reported_unpacks Primitives.transparent_lawful
    Primitives.transparent_rejectsTruncated hreach hinj hdisk [] (.refl _)
  obtain ⟨root, hroot⟩ := List.exists_mem_of_ne_nil _ hreported
  obtain ⟨n, hn⟩ := hunpacks root hroot
  exact ⟨s, root, disk, ix, hroot, hdisk, hnew, n,
    fun fuel hfuel io start => hn fuel hfuel io start id fun l => .refl l⟩

end

end Backuwup.Client.Upload
