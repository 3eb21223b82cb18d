/-
# A restore brings back what was backed up (`backup/mod.rs`)

What a restore saves comes from the stores of the peers (`Sourced`), and a restore that gets to
`unpack` has all of it, so the folder it unpacks is exactly what the peers have stored
(`unpacks_stores`).  When they have stored what they have acknowledged, the directory trees that
the client has backed up come back through the sessions of the restore (`backups_come_back`).
-/
import Backuwup.Client.Orchestrator.Backups
import Backuwup.Client.Orchestrator.CompleteRestore

namespace Backuwup.Client

namespace RestoreRuns

open Transition

/-! ## 1. Where the files come from -/

/-- The files of a session that are saved or on their way. -/
def Session.files (x : Session) : List (FileInfo × Bytes) :=
  x.saved ++ (inHand x.phase ++ (x.wire ++ x.sender.queue))

/-- A session only has files that the peer has stored, and begins with all of them. -/
structure Session.From (stores : ClientId → List (FileInfo × Bytes)) (x : Session) : Prop where
  stored : ∀ files, x.stored = some files → files.Perm (stores x.peer)
  files : ∀ f ∈ x.files, f ∈ stores x.peer

/-- The files of the folder have names that the peers have stored. -/
structure NamedBy (stores : ClientId → List (FileInfo × Bytes)) (disk : Disk) : Prop where
  named : ∀ info data, disk.read info = some data → ∃ peer, info ∈ (stores peer).map Prod.fst
  numbered : ∀ f ∈ disk.index, ∃ n : Fin 4294967296, f.1 = indexFileName n
  distinct : disk.index.Distinct

/-- All sessions and the folder come from the stores, which stay as they are. -/
structure Sourced (stores : ClientId → List (FileInfo × Bytes)) (s : State) : Prop where
  same : s.shared.stores = stores
  sessions : ∀ x ∈ s.tasks, x.From stores
  folder : NamedBy stores s.shared.disk

/-- The steps are in turn, and meanwhile the peers store nothing else. -/
def Quiet (s : State) (a : Action) : Prop :=
  InTurn s a ∧ ∀ peer file, a ≠ .store peer file

section

variable {stores : ClientId → List (FileInfo × Bytes)} {x x' : Session} {disk : Disk}

theorem from_opened {k : ℕ} {peer : ClientId} : (Session.opened k peer).From stores where
  stored files h := by cases h
  files f hf := by cases hf

/-- A session that gets no new file. -/
theorem Session.From.of_subset (h : x.From stores) (hpeer : x'.peer = x.peer)
    (hstored : x'.stored = x.stored) (hsub : x'.files ⊆ x.files) : x'.From stores where
  stored files hfiles := hpeer ▸ h.stored files (hstored ▸ hfiles)
  files f hf := hpeer ▸ h.files f (hsub hf)

/-- The peer's side takes what it sends from its store. -/
theorem from_senderStep {event : SenderEvent} (h : x.From stores)
    (hst : senderStep event stores x = some x') : x'.From stores := by
  generalize hsender : x.sender = sender at hst
  cases event with
  | begin listing =>
    cases sender <;> simp only [senderStep, hsender, reduceCtorEq] at hst
    obtain ⟨hperm, hst⟩ := Option.ite_none_right_eq_some.mp hst
    obtain rfl := Option.some.inj hst
    refine ⟨fun files hfiles => Option.some.inj hfiles ▸ hperm, ?_⟩
    intro f hf
    simp only [Session.files, Sender.queue, ← List.append_assoc, List.mem_append] at hf
    rcases hf with hf | hf
    · refine h.files f ?_
      simp only [Session.files, ← List.append_assoc, List.mem_append]
      exact Or.inl hf
    · exact hperm.mem_iff.mp hf
  | list file =>
    cases sender <;> simp only [senderStep, hsender, reduceCtorEq] at hst
    obtain ⟨⟨hfile, -⟩, hst⟩ := Option.ite_none_right_eq_some.mp hst
    obtain rfl := Option.some.inj hst
    refine ⟨h.stored, ?_⟩
    intro f hf
    simp only [Session.files, Sender.queue, ← List.append_assoc, List.mem_append] at hf
    rcases hf with hf | hf
    · refine h.files f ?_
      simpa only [Session.files, hsender, Sender.queue, ← List.append_assoc, List.mem_append]
        using hf
    · rwa [List.mem_singleton.mp hf]
  | send =>
    cases sender with
    | sending queue =>
      cases queue <;> simp only [senderStep, hsender, reduceCtorEq] at hst
      obtain rfl := Option.some.inj hst
      refine h.of_subset rfl rfl ?_
      simp [Session.files, hsender, Sender.queue]
    | _ => simp only [senderStep, hsender, reduceCtorEq] at hst
  | acknowledged =>
    cases sender <;> simp only [senderStep, hsender, reduceCtorEq] at hst
    obtain ⟨-, hst⟩ := Option.ite_none_right_eq_some.mp hst
    obtain rfl := Option.some.inj hst
    refine h.of_subset rfl rfl ?_
    simp [Session.files, hsender, Sender.queue]
  | close =>
    cases sender with
    | sending queue =>
      cases queue <;> simp only [senderStep, hsender, reduceCtorEq] at hst
      obtain rfl := Option.some.inj hst
      refine h.of_subset rfl rfl ?_
      simp [Session.files, hsender, Sender.queue]
    | _ => simp only [senderStep, hsender, reduceCtorEq] at hst
  | fail =>
    obtain ⟨-, hst⟩ := Option.ite_none_left_eq_some.mp hst
    obtain rfl := Option.some.inj hst
    refine h.of_subset rfl rfl ?_
    intro f hf
    simp only [Session.files, List.mem_append] at hf ⊢
    rcases hf with hf | hf | hf | hf
    · exact Or.inl hf
    · exact Or.inr (Or.inl hf)
    · exact Or.inr (Or.inr (Or.inl hf))
    · cases hf

/-- The client's side only has what was sent. -/
theorem from_receiverStep {event : ReceiverEvent} {sh sh' : Shared} (h : x.From stores)
    (hst : receiverStep event sh x = some (sh', x')) : x'.From stores := by
  cases receives_of_receiverStep hst with
  | delivers file wire hphase hwire =>
    refine h.of_subset rfl rfl ?_
    intro f hf
    simp only [Session.files, hphase, hwire, inHand, List.mem_append, List.mem_cons,
      or_assoc] at hf ⊢
    simpa using hf
  | saves info data hphase =>
    refine h.of_subset rfl rfl ?_
    intro f hf
    simp only [Session.files, hphase, inHand, List.mem_append, List.mem_singleton,
      or_assoc] at hf ⊢
    simpa using hf
  | creates hphase | notCreated hphase | breaks hphase | closes hphase | notSaved _ _ hphase
  | tears _ _ _ hphase | acknowledges hphase | notAcknowledged hphase | completes hphase
  | fails hphase =>
    refine h.of_subset rfl rfl ?_
    intro f hf
    simp only [Session.files, inHand, List.nil_append, List.mem_append] at hf ⊢
    exact hf.imp_right Or.inr

/-! ## 2. The folder -/

namespace NamedBy

theorem empty : NamedBy stores .empty where
  named info data h := by cases info <;> cases h
  numbered f hf := by cases hf
  distinct := List.nodup_nil

/-- A file is written, whole or not, that a peer has stored under this name. -/
theorem save (h : NamedBy stores disk) {info : FileInfo} {peer : ClientId}
    (hinfo : info ∈ (stores peer).map Prod.fst) (data : Bytes) :
    NamedBy stores (disk.save data info) where
  named info' data' hread := by
    by_cases hne : info' = info
    · exact ⟨peer, hne ▸ hinfo⟩
    · exact h.named info' data' (Disk.read_save_ne hne ▸ hread)
  numbered f hf := by
    cases info with
    | packfile id => exact h.numbered f hf
    | index n =>
      rcases Folder.mem_write hf with rfl | ⟨hf, -⟩
      · exact ⟨n, rfl⟩
      · exact h.numbered f hf
  distinct := by
    cases info with
    | packfile id => exact h.distinct
    | index n => exact h.distinct.write _ _

theorem erase (h : NamedBy stores disk) (info : FileInfo) : NamedBy stores (disk.erase info) where
  named info' data hread := by
    by_cases hne : info' = info
    · subst hne
      cases info' with
      | packfile id => simp [Disk.read, Disk.erase] at hread
      | index n =>
        obtain ⟨f, hf, -⟩ := Option.map_eq_some_iff.mp hread
        have hne : f.1 ≠ indexFileName n := by
          simpa using (List.mem_filter.mp (List.mem_of_find?_eq_some hf)).2
        exact absurd (by simpa using List.find?_some hf) hne
    · exact h.named info' data (Disk.read_erase_ne hne ▸ hread)
  numbered f hf := by
    cases info with
    | packfile id => exact h.numbered f hf
    | index n => exact h.numbered f (List.mem_filter.mp hf).1
  distinct := by
    cases info with
    | packfile id => exact h.distinct
    | index n => exact h.distinct.filter _

/-- An index file of the folder is what is read under its number. -/
theorem read_index (h : NamedBy stores disk) {n : Fin 4294967296} {data : Bytes}
    (hmem : (indexFileName n, data) ∈ disk.index) : disk.read (.index n) = some data := by
  cases hfind : disk.index.find? fun f => f.1 = indexFileName n with
  | none => exact absurd (List.find?_eq_none.mp hfind _ hmem) (by simp)
  | some f =>
    have hname : f.1 = indexFileName n := by simpa using List.find?_some hfind
    have hf : f = (indexFileName n, data) :=
      h.distinct.unique (List.mem_of_find?_eq_some hfind) hmem hname
    rw [Disk.read, hfind, hf]
    rfl

end NamedBy

/-- A call of `request_restore` removes files at most. -/
theorem callStep_disk {sh sh' : Shared} {a : Action} (hstore : ∀ peer file, a ≠ .store peer file)
    (hst : callStep sh a = some sh') : sh'.stores = sh.stores ∧
      (sh'.disk = sh.disk ∨ (∃ info, sh'.disk = sh.disk.erase info) ∨ sh'.disk = .empty) := by
  cases called_of_callStep hst with
  | stores peer file => exact absurd rfl (hstore peer file)
  | removesFile k info => exact ⟨rfl, Or.inr (Or.inl ⟨info, rfl⟩)⟩
  | removes k => exact ⟨rfl, Or.inr (Or.inr rfl)⟩
  | registers k peers rest peer =>
    exact ⟨sh.addRequest_stores peer k, Or.inl (sh.addRequest_disk peer k)⟩
  | finishes | locks | initializes | lists | addsPeer | contacts | checks | waits | completes
    | unpacks | unpacked | drops => exact ⟨rfl, Or.inl rfl⟩

theorem sourced_start : Sourced stores (start .empty stores) where
  same := rfl
  sessions x hx := by cases hx
  folder := .empty

theorem sourced_step {s s' : State} {a : Action} (h : Sourced stores s)
    (hstore : ∀ peer file, a ≠ .store peer file) (hst : step s a = some s') :
    Sourced stores s' := by
  have hcall (a : Action) (hstore : ∀ peer file, a ≠ .store peer file)
      (hst : (callStep s.shared a).map (fun sh => (⟨sh, s.tasks⟩ : State)) = some s') :
      Sourced stores s' := by
    obtain ⟨sh, hsh, rfl⟩ := Option.map_eq_some_iff.mp hst
    obtain ⟨hsame, hdisk⟩ := callStep_disk hstore hsh
    refine ⟨hsame.trans h.same, h.sessions, ?_⟩
    rcases hdisk with hdisk | ⟨info, hdisk⟩ | hdisk
    · exact hdisk ▸ h.folder
    · exact hdisk ▸ h.folder.erase info
    · exact hdisk ▸ .empty
  cases a with
  | connect peer =>
    obtain ⟨r, -, rfl⟩ := Option.map_eq_some_iff.mp hst
    exact ⟨h.same, Pool.forall_mem_spawn h.sessions from_opened, h.folder⟩
  | sender t event =>
    rw [step] at hst
    obtain ⟨x, sh, x', ht, hx, rfl⟩ := Pool.advance_eq_some.mp hst
    obtain ⟨y, hy, heq⟩ := Option.map_eq_some_iff.mp hx
    obtain ⟨rfl, rfl⟩ := Prod.mk.inj heq
    rw [h.same] at hy
    have hfrom := from_senderStep (h.sessions x (List.mem_of_getElem? ht)) hy
    exact ⟨h.same, Pool.forall_mem_set h.sessions hfrom, h.folder⟩
  | receiver t event =>
    obtain ⟨x, sh, x', ht, hx, rfl⟩ := Pool.advance_eq_some.mp hst
    have hold := h.sessions x (List.mem_of_getElem? ht)
    have hfrom := from_receiverStep hold hx
    refine ⟨?_, Pool.forall_mem_set h.sessions hfrom, ?_⟩
    · cases receives_of_receiverStep hx <;> exact h.same
    · cases receives_of_receiverStep hx with
      | saves info data hphase | tears info data n hphase =>
        have hinfo : info ∈ (stores x.peer).map Prod.fst :=
          List.mem_map_of_mem (f := Prod.fst) (hold.files (info, data)
            (by simp [Session.files, hphase, inHand]))
        exact h.folder.save hinfo _
      | _ => exact h.folder
  | _ => exact hcall _ hstore hst

/-! ## 3. What is unpacked -/

/-- Files of one name have one content, whoever has stored them. -/
def Agree (stores : ClientId → List (FileInfo × Bytes)) : Prop :=
  ∀ peer peer', ∀ f ∈ stores peer, ∀ f' ∈ stores peer', f.1 = f'.1 → f = f'

/-- What has been delivered is in the folder. -/
theorem Delivered.read {s : State} {k : ℕ} {peer : ClientId} (h : Delivered s k peer)
    (hs : Sourced stores s) (hagree : Agree stores) {f : FileInfo × Bytes}
    (hf : f ∈ stores peer) : s.shared.disk.read f.1 = some f.2 := by
  obtain ⟨x, hx, -, rfl, -, files, hfiles, hall⟩ := h
  obtain ⟨-, y, hy, data, hsaved, hread⟩ :=
    hall f (((hs.sessions x hx).stored files hfiles).mem_iff.mpr hf)
  have hstored : (f.1, data) ∈ stores y.peer :=
    (hs.sessions y hy).files _ (List.mem_append_left _ hsaved)
  have heq := hagree _ _ _ hstored f hf rfl
  rw [hread, ← congrArg Prod.snd heq]

/-- `unpack` is called in the folder as the waiting loop has left it. -/
theorem completed_of_backupPath {s s' : State} {k : ℕ} {peers : List ClientId}
    (hst : step s (.backupPath k true) = some s') (hunpack : s'.shared.call k = .unpacking peers) :
    s.shared.call k = .completed peers ∧ s'.shared.disk = s.shared.disk := by
  obtain ⟨sh, hsh, rfl⟩ := Option.map_eq_some_iff.mp hst
  simp only [callStep] at hsh
  split at hsh
  · rename_i peers' hpc
    obtain rfl := Option.some.inj hsh
    obtain rfl : peers' = peers := by simpa [Shared.setCall] using hunpack
    exact ⟨hpc, rfl⟩
  · cases hsh

/-- In every run whose steps are in turn, from an empty folder and while the peers store nothing
else, a restore that gets to `unpack` has exactly what they have stored. -/
theorem unpacked_folder {s s' : State} {k : ℕ} {peers : List ClientId}
    (h : Reach step Quiet (start .empty stores) s) (hst : step s (.backupPath k true) = some s')
    (hunpack : s'.shared.call k = .unpacking peers) (hagree : Agree stores)
    (hpeers : ∀ peer, stores peer ≠ [] → peer ∈ peers) :
    NamedBy stores s'.shared.disk ∧ ∀ info data, s'.shared.disk.read info = some data ↔
      ∃ peer, (info, data) ∈ stores peer := by
  have hsourced : Sourced stores s := h.invariant sourced_start
    fun _ _ _ hi hok hst => sourced_step hi hok.2 hst
  have horder : InOrder s :=
    h.invariant inOrder_start fun _ _ _ hi hok hst => inOrder_step hi hok.1 hst
  obtain ⟨hpc, hdisk⟩ := completed_of_backupPath hst hunpack
  rw [hdisk]
  have hread : ∀ peer, ∀ f ∈ stores peer, s.shared.disk.read f.1 = some f.2 := by
    intro peer f hf
    exact (horder.delivered hpc (hpeers peer (List.ne_nil_of_mem hf))).read hsourced hagree hf
  refine ⟨hsourced.folder, ?_⟩
  intro info data
  constructor
  · intro hdata
    obtain ⟨peer, hinfo⟩ := hsourced.folder.named info data hdata
    obtain ⟨f, hf, rfl⟩ := List.mem_map.mp hinfo
    rw [hread peer f hf, Option.some.injEq] at hdata
    exact ⟨peer, hdata ▸ hf⟩
  · rintro ⟨peer, hf⟩
    exact hread peer _ hf

end

end RestoreRuns

namespace Upload

open Transition

/-! ## 4. From backup to restore -/

/-- The peers have stored what they have acknowledged.  They may have more packfiles of it, whose
acknowledgement got lost, but no other index files. -/
structure StoresAcknowledged (s : State) (stores : ClientId → List (FileInfo × Bytes)) : Prop where
  packfiles : ∀ a ∈ s.acknowledged, (.packfile a.2.1, a.2.2) ∈ stores a.1
  index : ∀ a ∈ s.index.acknowledged, ∃ n : Fin 4294967296, n.val = a.2.1 ∧
    (.index n, a.2.2) ∈ stores a.1
  same : ∀ peer peer' id data data', (.packfile id, data) ∈ stores peer →
    (.packfile id, data') ∈ stores peer' → data = data'
  onlyIndex : ∀ peer n data, (.index n, data) ∈ stores peer →
    (peer, n.val, data) ∈ s.index.acknowledged

section

variable {P : Primitives} {keys : KeyManager} {fastCdc : Bytes → List Bytes}
  {diffPaths : FsPath → FsPath → Option FsPath} {src : Source} {t : Backups}
  {stores : ClientId → List (FileInfo × Bytes)}

/-- The index files that were acknowledged under one number are one. -/
theorem Backups.Recorded.acknowledged_unique (h : Recorded P keys fastCdc diffPaths t)
    {peer peer' : ClientId} {num : ℕ} {data data' : Bytes}
    (hack : (peer, num, data) ∈ t.client.index.acknowledged)
    (hack' : (peer', num, data') ∈ t.client.index.acknowledged) : data = data' := by
  obtain ⟨-, hmem⟩ := h.uploaded.synced.stored _ hack
  obtain ⟨-, hmem'⟩ := h.uploaded.synced.stored _ hack'
  exact congrArg Prod.snd (h.distinct.unique hmem hmem' rfl)

theorem StoresAcknowledged.agree (h : StoresAcknowledged t.client stores)
    (hrecorded : t.Recorded P keys fastCdc diffPaths) : RestoreRuns.Agree stores := by
  rintro peer peer' ⟨info, data⟩ hf ⟨info', data'⟩ hf' hname
  obtain rfl : info = info' := hname
  cases info with
  | packfile id => rw [h.same _ _ _ _ _ hf hf']
  | index n =>
    rw [hrecorded.acknowledged_unique (h.onlyIndex _ _ _ hf) (h.onlyIndex _ _ _ hf')]

/-- A folder with exactly what the peers have stored is one with what they have acknowledged. -/
theorem StoresAcknowledged.holds (h : StoresAcknowledged t.client stores) {disk : Disk}
    (hnamed : RestoreRuns.NamedBy stores disk)
    (hread : ∀ info data, disk.read info = some data ↔ ∃ peer, (info, data) ∈ stores peer) :
    HoldsAcknowledged t.client disk where
  packfiles a ha := (hread (.packfile a.2.1) a.2.2).mpr ⟨a.1, h.packfiles a ha⟩
  index f := by
    constructor
    · intro hf
      obtain ⟨name, data⟩ := f
      obtain ⟨n, rfl⟩ := hnamed.numbered _ hf
      obtain ⟨peer, hstored⟩ := (hread _ _).mp (hnamed.read_index hf)
      exact ⟨_, h.onlyIndex _ _ _ hstored, rfl⟩
    · rintro ⟨a, ha, rfl⟩
      obtain ⟨n, hn, hstored⟩ := h.index a ha
      rw [← hn]
      exact Disk.mem_index_of_read ((hread _ _).mpr ⟨a.1, hstored⟩)

/-- Whatever the client has backed up, and however its directory tree has changed in between: when
a restore from the peers gets to `unpack`, the index of its folder loads, and unpacking any snapshot
that was ever reported yields the directory tree that it was taken of. -/
theorem backups_come_back (hP : P.Lawful) (hrej : P.RejectsTruncated) (hcdc : CutsUp fastCdc)
    (hdiff : LeadsFrom diffPaths)
    (h : Reach (Backups.step P keys) (Backups.Faithful fastCdc diffPaths) (.start src) t)
    (hinj : Set.InjOn Blob.hash {b | b ∈ t.client.packing.world.added})
    (hstores : StoresAcknowledged t.client stores) {s s' : RestoreRuns.State} {k : ℕ}
    {peers : List ClientId}
    (hrestore : Reach RestoreRuns.step RestoreRuns.Quiet (RestoreRuns.start .empty stores) s)
    (hst : RestoreRuns.step s (.backupPath k true) = some s')
    (hunpack : s'.shared.call k = .unpacking peers)
    (hpeers : ∀ peer, stores peer ≠ [] → peer ∈ peers) (names : List FileName) {files : Folder}
    (hf : files.Perm s'.shared.disk.index) :
    ∃ ix, BlobIndex.new P keys names files = .ok ix ∧ ∀ e ∈ t.saved,
      SameBelow e.2.host e.2.root → ∃ n, ∀ fuel, n ≤ fuel →
        ∀ schedule : List (Tree × FsPath) → List (Tree × FsPath), (∀ l, (schedule l).Perm l) →
          ∃ d, unpack (Manager.getBlob P keys ix s'.shared.disk) schedule fuel e.1 = .ok d ∧
            ∀ q, d.nodeAt q = e.2.host.fs.node (q ++ e.2.host.base e.2.root) := by
  have hrecorded := Backups.recorded_run hP hrej hcdc hdiff h
  obtain ⟨hnamed, hread⟩ :=
    RestoreRuns.unpacked_folder hrestore hst hunpack (hstores.agree hrecorded) hpeers
  exact hrecorded.restores hcdc hdiff hinj (hstores.holds hnamed hread) names hf

end

/-! ## 5. A restore of one file -/

section

/-- What a peer has acknowledged. -/
def State.storesOf (s : State) (peer : ClientId) : List (FileInfo × Bytes) :=
  (s.acknowledged.filter fun a => a.1 = peer).map (fun a => (.packfile a.2.1, a.2.2)) ++
    (s.index.acknowledged.filter fun a => a.1 = peer).map fun a =>
      (.index (Fin.ofNat 4294967296 a.2.1), a.2.2)

theorem storesAcknowledged_storesOf {s : State}
    (hgone : ∀ a ∈ s.acknowledged, s.gone a.2.1 = some a.2.2)
    (hmax : ∀ a ∈ s.index.acknowledged, a.2.1 < 4294967296) :
    StoresAcknowledged s s.storesOf := by
  have hpackfile : ∀ peer id data, (.packfile id, data) ∈ s.storesOf peer →
      s.gone id = some data := by
    intro peer id data hmem
    simp only [State.storesOf, List.mem_append, List.mem_map, List.mem_filter, Prod.mk.injEq,
      FileInfo.packfile.injEq, reduceCtorEq, false_and, and_false, exists_false, or_false] at hmem
    obtain ⟨a, ⟨ha, -⟩, rfl, rfl⟩ := hmem
    exact hgone a ha
  refine ⟨?_, ?_, ?_, ?_⟩
  · intro a ha
    refine List.mem_append_left _ (List.mem_map.mpr ⟨a, ?_, rfl⟩)
    exact List.mem_filter.mpr ⟨ha, decide_eq_true rfl⟩
  · intro a ha
    refine ⟨Fin.ofNat 4294967296 a.2.1, Nat.mod_eq_of_lt (hmax a ha), ?_⟩
    refine List.mem_append_right _ (List.mem_map.mpr ⟨a, ?_, rfl⟩)
    exact List.mem_filter.mpr ⟨ha, decide_eq_true rfl⟩
  · intro peer peer' id data data' hmem hmem'
    exact Option.some.inj ((hpackfile _ _ _ hmem).symm.trans (hpackfile _ _ _ hmem'))
  · intro peer n data hmem
    simp only [State.storesOf, List.mem_append, List.mem_map, List.mem_filter, Prod.mk.injEq,
      FileInfo.index.injEq, reduceCtorEq, false_and, and_false, exists_false, false_or] at hmem
    obtain ⟨a, ⟨ha, hpeer⟩, rfl, rfl⟩ := hmem
    obtain rfl : a.1 = peer := of_decide_eq_true hpeer
    have hval : (Fin.ofNat 4294967296 a.2.1).val = a.2.1 := Nat.mod_eq_of_lt (hmax a ha)
    rw [hval]
    exact ha

def onePeer : ClientId := .fill 1

open RestoreRuns (ask beginSession deliverAll inTurn inTurn_ok) in
def restoreOne (files : List (FileInfo × Bytes)) : List RestoreRuns.Action :=
  .start 0 false :: ask 0 [onePeer] ++ beginSession 0 files ++ deliverAll 0 files ++
    [.checkRunning 0, .checkPeers 0]

/-- A check that is enough for a step to be quiet. -/
def quiet (s : RestoreRuns.State) : RestoreRuns.Action → Bool
  | .store _ _ => false
  | a => RestoreRuns.inTurn s a

theorem quiet_ok (s : RestoreRuns.State) (a : RestoreRuns.Action) (h : quiet s a = true) :
    RestoreRuns.Quiet s a := by
  cases a with
  | store => cases h
  | _ => exact ⟨RestoreRuns.inTurn_ok _ _ h, by simp⟩

theorem restoreOne_ok : packAndReport.any (fun s =>
    decide (∀ a ∈ s.acknowledged, a.1 = onePeer) &&
    decide (∀ a ∈ s.index.acknowledged, a.1 = onePeer ∧ a.2.1 < 4294967296) &&
    (runWhen RestoreRuns.step quiet (RestoreRuns.start .empty s.storesOf)
      (restoreOne (s.storesOf onePeer))).any fun r =>
        (RestoreRuns.step r (.backupPath 0 true)).any fun r' =>
          decide (r'.shared.call 0 = .unpacking [onePeer])) = true := by
  decide +kernel

/-- The directory tree with one file is backed up and comes back. -/
theorem backups_come_back_one : ∃ (s : RestoreRuns.State) (ix : BlobIndex) (root : BlobHash)
    (n : ℕ), s.shared.call 0 = .unpacking [onePeer] ∧
    BlobIndex.new .transparent sampleKeys [] s.shared.disk.index = .ok ix ∧ ∀ fuel, n ≤ fuel →
      ∃ d, unpack (Manager.getBlob .transparent sampleKeys ix s.shared.disk) id fuel root = .ok d ∧
        d.nodeAt [['f']] = some (.file [1, 2, 3]) := by
  obtain ⟨s, saved, hsteps, hsome, hsrc, hreach, hinj, hgone⟩ := oneFile_reach
  obtain ⟨s₀, hs₀, hok⟩ := (Option.any_eq_true _ _).mp restoreOne_ok
  obtain rfl : s = s₀ := Option.some.inj (hsteps.symm.trans hs₀)
  simp only [Bool.and_eq_true, decide_eq_true_eq] at hok
  obtain ⟨⟨hpackfiles, hindex⟩, hok⟩ := hok
  obtain ⟨r, hrun, hok⟩ := (Option.any_eq_true _ _).mp hok
  obtain ⟨r', hst, hok⟩ := (Option.any_eq_true _ _).mp hok
  have hunpack := of_decide_eq_true hok
  have hpeers : ∀ peer, s.storesOf peer ≠ [] → peer ∈ [onePeer] := by
    intro peer hne
    obtain ⟨f, hf⟩ := List.exists_mem_of_ne_nil _ hne
    rcases List.mem_append.mp hf with hf | hf
    all_goals
      obtain ⟨a, ha, -⟩ := List.mem_map.mp hf
      obtain ⟨ha, hpeer⟩ := List.mem_filter.mp ha
      rw [← of_decide_eq_true hpeer, List.mem_singleton]
    · exact hpackfiles a ha
    · exact (hindex a ha).1
  obtain ⟨ix, hnew, hrestores⟩ := backups_come_back Primitives.transparent_lawful
    Primitives.transparent_rejectsTruncated cutsUp_cutAtMax leadsFrom_stripBase hreach hinj
    (storesAcknowledged_storesOf hgone fun a ha => (hindex a ha).2)
    (reach_of_runWhen quiet_ok hrun) hst hunpack hpeers [] (.refl _)
  obtain ⟨e, he⟩ := List.exists_mem_of_ne_nil _ hsome
  obtain ⟨n, hn⟩ := hrestores e he (hsrc e he ▸ oneFileSource_sameBelow)
  refine ⟨r', ix, e.1, n, hunpack, hnew, ?_⟩
  intro fuel hfuel
  obtain ⟨d, hd, hnodes⟩ := hn fuel hfuel id fun l => .refl l
  refine ⟨d, hd, ?_⟩
  rw [hnodes, hsrc e he]
  rfl

end

end Upload

end Backuwup.Client
