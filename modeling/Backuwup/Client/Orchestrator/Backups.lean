/-
# From a directory tree to the peers and back

A client backs up again and again, and in between the directory tree changes.  Along its runs the
model notes for every snapshot that is reported the directory tree that it was taken of
(`Backups`).  From what the peers have acknowledged each of these trees comes back as it was then
(`reported_restores`), whatever was backed up after it.
-/
import Backuwup.Client.DirPacker.SourceTree
import Backuwup.Client.Orchestrator.Reported

namespace Backuwup.Client.Upload

open Transition

/-! ## 1. Runs over changing directory trees -/

/-- The client, the directory tree of the current backup, and of each snapshot that was reported
the directory tree it was taken of. -/
structure Backups where
  client : State
  source : Source
  saved : List (BlobHash × Source)

namespace Backups

/-- A fresh installation. -/
def start (src : Source) : Backups := ⟨.start, src, []⟩

/-- A backup is of the directory tree that is there when its manager is opened. -/
def nextSource (s : Backups) (a : Action × Source) : Source :=
  match a.1 with
  | .pack b => if isOpen b then a.2 else s.source
  | _ => s.source

def nextSaved (s : Backups) (a : Action) : List (BlobHash × Source) :=
  match a, s.client.packing.result with
  | .report, some root => (root, s.source) :: s.saved
  | _, _ => s.saved

def step (P : Primitives) (keys : KeyManager) (s : Backups) (a : Action × Source) :
    Option Backups :=
  (Upload.step P keys s.client a.1).map fun client => ⟨client, s.nextSource a, s.nextSaved a.1⟩

/-- The system does its part, and `pack` sees one directory tree from its start to its end. -/
def Faithful (fastCdc : Bytes → List Bytes) (diffPaths : FsPath → FsPath → Option FsPath)
    (s : Backups) (a : Action × Source) : Prop :=
  Sane s.client a.1 ∧
    ∀ b, a.1 = .pack b → (s.nextSource a).Yields fastCdc diffPaths s.client.packing b

/-- The snapshots that were reported are those of the directory trees that were noted. -/
structure Recorded (P : Primitives) (keys : KeyManager) (fastCdc : Bytes → List Bytes)
    (diffPaths : FsPath → FsPath → Option FsPath) (s : Backups) : Prop where
  packed : Packed P keys s.client
  uploaded : Uploaded P keys s.client
  distinct : s.client.disk.index.Distinct
  packing : PackingOf P fastCdc diffPaths s.source s.client.packing
  reported : s.saved.map Prod.fst = s.client.reported
  saved : ∀ e ∈ s.saved, SnapshotOf P fastCdc diffPaths e.2 s.client.packing.world.added e.1

end Backups

section

variable {P : Primitives} {keys : KeyManager} {fastCdc : Bytes → List Bytes}
  {diffPaths : FsPath → FsPath → Option FsPath} {s s' : State} {a : Action} {src : Source}

/-! ## 2. A step -/

theorem Sends.reported {e : SendEvent} (h : Sends s e s') : s'.reported = s.reported := by
  cases h <;> rfl

/-- A step reports at most the snapshot that `pack` has returned. -/
theorem reported_step (hst : step P keys s a = some s') :
    s'.reported = match a, s.packing.result with
      | .report, some root => root :: s.reported
      | _, _ => s.reported := by
  cases a with
  | begin =>
    simp only [step] at hst
    split at hst
    · cases hst
    · obtain rfl := Option.some.inj hst
      rfl
  | pack b =>
    obtain ⟨-, hst⟩ := Option.ite_none_right_eq_some.mp hst
    obtain ⟨p, -, rfl⟩ := Option.map_eq_some_iff.mp hst
    rfl
  | complete =>
    obtain ⟨-, hst⟩ := Option.ite_none_right_eq_some.mp hst
    obtain rfl := Option.some.inj hst
    rfl
  | written | matched =>
    obtain rfl := Option.some.inj hst
    rfl
  | send e => exact (sends_of_sendStep hst).reported
  | report =>
    obtain ⟨root, hroot, -, rfl⟩ := reported_of_report hst
    simp only [hroot]
  | abort =>
    simp only [step] at hst
    split at hst
    · obtain ⟨-, hst⟩ := Option.ite_none_right_eq_some.mp hst
      obtain rfl := Option.some.inj hst
      rfl
    · cases hst
  | kill =>
    simp only [step] at hst
    split at hst
    · obtain rfl := Option.some.inj hst
      rfl
    · obtain ⟨p, -, rfl⟩ := Option.map_eq_some_iff.mp hst
      rfl

/-- Blobs that were added stay so. -/
theorem Effect.added_subset (hpack : PackOk P s.packing) (h : Effect P keys s a s') :
    s.packing.world.added ⊆ s'.packing.world.added := by
  cases h with
  | controls _ _ hsame | indexes _ _ _ _ _ hsame =>
    rw [hsame.packing]
    exact List.Subset.refl _
  | packs _ b p _ _ hst hsame =>
    rw [hsame.packing]
    obtain ⟨-, hw | ⟨c, hm, -⟩⟩ := packOk_step hpack hst
    · rw [hw]
      exact List.Subset.refl _
    · exact added_subset_managerStep hm
  | acks _ _ _ _ _ _ _ _ _ hsame =>
    rw [hsame.packing]
    exact List.Subset.refl _

/-- The files of the index folder keep their different names. -/
theorem Effect.distinct (hpack : PackOk P s.packing) (h : Effect P keys s a s')
    (hd : s.disk.index.Distinct) : s'.disk.index.Distinct := by
  cases h with
  | controls _ _ hsame | indexes _ _ _ _ _ hsame =>
    rw [State.disk, hsame.packing]
    exact hd
  | packs _ b p _ _ hst hsame =>
    rw [State.disk, hsame.packing]
    obtain ⟨-, hw | ⟨c, hm, -⟩⟩ := packOk_step hpack hst
    · exact hw ▸ hd
    · exact (stepped_of_managerStep hm).distinct hd
  | acks _ _ _ _ _ _ _ _ _ hsame =>
    rw [State.disk, hsame.packing]
    exact hd

/-- What `run` and `send` do is nothing to `pack`. -/
theorem packingOf_effect (hcdc : CutsUp fastCdc) (hdiff : LeadsFrom diffPaths)
    (hpack : PackOk P s.packing) (h : PackingOf P fastCdc diffPaths src s.packing)
    (hne : ∀ b, a ≠ .pack b) (heffect : Effect P keys s a s') :
    PackingOf P fastCdc diffPaths src s'.packing := by
  cases heffect with
  | controls _ _ hsame | indexes _ _ _ _ _ hsame => exact hsame.packing ▸ h
  | packs _ b p _ hb hst hsame =>
    rw [hsame.packing]
    obtain heq | ⟨-, rfl⟩ := hb
    · exact absurd heq (hne b)
    · exact packing_step hcdc hdiff h hpack (show src.Yields _ _ _ .kill from trivial) hst
  | acks _ _ _ _ _ _ _ _ _ hsame =>
    rw [hsame.packing]
    exact h.setWorld (List.Subset.refl _)

variable {t t' : Backups} {b : Action × Source}

namespace Backups

theorem recorded_start : Recorded P keys fastCdc diffPaths (.start src) where
  packed := packed_start
  uploaded := uploaded_start
  distinct := List.nodup_nil
  packing root hroot := by cases hroot
  reported := rfl
  saved := by simp [Backups.start]

/-- `pack` goes on with the directory tree of the current backup. -/
theorem Recorded.nextPacking (hcdc : CutsUp fastCdc) (hdiff : LeadsFrom diffPaths)
    (h : Recorded P keys fastCdc diffPaths t) (hfaithful : t.Faithful fastCdc diffPaths b)
    {client : State} (hst : Upload.step P keys t.client b.1 = some client) :
    PackingOf P fastCdc diffPaths (t.nextSource b) client.packing := by
  have hpack : PackOk P t.client.packing := packOk_of_putBack h.packed.pack.pack
  have heffect := effect_of_step hst
  obtain ⟨a, src⟩ := b
  cases a with
  | pack b =>
    obtain ⟨-, hst⟩ := Option.ite_none_right_eq_some.mp hst
    obtain ⟨p, hp, rfl⟩ := Option.map_eq_some_iff.mp hst
    have hyields := hfaithful.2 b rfl
    by_cases hopen : isOpen b = true
    · cases b with
      | openManager => exact packing_open hyields hp
      | _ => cases hopen
    · have hsame : t.nextSource (.pack b, src) = t.source := if_neg hopen
      rw [hsame] at hyields ⊢
      exact packing_step hcdc hdiff h.packing hpack hyields hp
  | _ => exact packingOf_effect hcdc hdiff hpack h.packing (by simp) heffect

/-- Every snapshot that is reported is noted. -/
theorem Recorded.nextReported (h : Recorded P keys fastCdc diffPaths t) {client : State}
    (hst : Upload.step P keys t.client b.1 = some client) :
    (t.nextSaved b.1).map Prod.fst = client.reported := by
  have hreported := reported_step hst
  obtain ⟨a, src⟩ := b
  cases a with
  | report =>
    cases hroot : t.client.packing.result with
    | none =>
      simp only [nextSaved, hroot] at hreported ⊢
      exact h.reported.trans hreported.symm
    | some root =>
      simp only [nextSaved, hroot] at hreported ⊢
      rw [hreported, List.map_cons, h.reported]
  | _ => exact h.reported.trans hreported.symm

/-- Every snapshot that is noted was taken of its directory tree. -/
theorem Recorded.nextSnapshot (h : Recorded P keys fastCdc diffPaths t) (a : Action)
    {e : BlobHash × Source} (he : e ∈ t.nextSaved a) :
    SnapshotOf P fastCdc diffPaths e.2 t.client.packing.world.added e.1 := by
  have hpack : PackOk P t.client.packing := packOk_of_putBack h.packed.pack.pack
  unfold nextSaved at he
  split at he
  · rename_i root hroot
    rcases List.mem_cons.mp he with rfl | he
    · exact h.packing.snapshot hpack hroot
    · exact h.saved e he
  · exact h.saved e he

theorem recorded_step (hP : P.Lawful) (hrej : P.RejectsTruncated) (hcdc : CutsUp fastCdc)
    (hdiff : LeadsFrom diffPaths) (h : Recorded P keys fastCdc diffPaths t)
    (hfaithful : t.Faithful fastCdc diffPaths b) (hst : t.step P keys b = some t') :
    Recorded P keys fastCdc diffPaths t' := by
  obtain ⟨client, hclient, rfl⟩ := Option.map_eq_some_iff.mp hst
  have hpack : PackOk P t.client.packing := packOk_of_putBack h.packed.pack.pack
  have heffect := effect_of_step hclient
  exact ⟨packed_step hP hrej h.packed hfaithful.1 heffect,
    uploaded_step h.packed h.uploaded hfaithful.1 hclient, heffect.distinct hpack h.distinct,
    h.nextPacking hcdc hdiff hfaithful hclient, h.nextReported hclient,
    fun e he => (h.nextSnapshot b.1 he).mono (heffect.added_subset hpack)⟩

/-- So it is in every run. -/
theorem recorded_run (hP : P.Lawful) (hrej : P.RejectsTruncated) (hcdc : CutsUp fastCdc)
    (hdiff : LeadsFrom diffPaths)
    (h : Reach (step P keys) (Faithful fastCdc diffPaths) (.start src) t) :
    Recorded P keys fastCdc diffPaths t :=
  h.invariant recorded_start fun _ _ _ => recorded_step hP hrej hcdc hdiff

/-- From a folder with what the peers have acknowledged every directory tree is restored. -/
theorem Recorded.restores (h : Recorded P keys fastCdc diffPaths t) (hcdc : CutsUp fastCdc)
    (hdiff : LeadsFrom diffPaths)
    (hinj : Set.InjOn Blob.hash {b | b ∈ t.client.packing.world.added})
    {disk : Disk} (hdisk : HoldsAcknowledged t.client disk) (names : List FileName)
    {files : Folder} (hf : files.Perm disk.index) :
    ∃ ix, BlobIndex.new P keys names files = .ok ix ∧ ∀ e ∈ t.saved,
      SameBelow e.2.host e.2.root → ∃ n, ∀ fuel, n ≤ fuel →
        ∀ schedule : List (Tree × FsPath) → List (Tree × FsPath), (∀ l, (schedule l).Perm l) →
          ∃ d, unpack (Manager.getBlob P keys ix disk) schedule fuel e.1 = .ok d ∧
            ∀ q, d.nodeAt q = e.2.host.fs.node (q ++ e.2.host.base e.2.root) := by
  obtain ⟨ix, hnew, hunpacks⟩ := h.uploaded.unpacks h.packed hinj hdisk names hf
  refine ⟨ix, hnew, ?_⟩
  intro e he hbelow
  have hreported : e.1 ∈ t.client.reported := h.reported ▸ List.mem_map_of_mem he
  obtain ⟨n, hsame⟩ := hunpacks e.1 hreported
  obtain ⟨st, ⟨fuel₀, scan, hscan, hpack⟩, hroot, hall⟩ := h.saved e he
  obtain ⟨done, hscanned, -, n', hrestored⟩ := restored_of_packs hdiff hcdc hscan hpack
    fun b hb => storeOf_of_injOn hinj (hall b hb)
  refine ⟨max n n', ?_⟩
  intro fuel hfuel schedule hsched
  obtain ⟨d, hd, hnodes⟩ := (hrestored fuel (le_of_max_le_right hfuel)).2 schedule hsched
  refine ⟨d, ?_, fun q => (hnodes q).trans (restoredNode_eq (hscanned.of_sameBelow hbelow) q)⟩
  obtain ⟨heq, -⟩ := hsame fuel (le_of_max_le_left hfuel) .noFault .empty schedule hsched
  rw [unpack_noFault, unpack_noFault] at heq
  rw [heq, ← hroot]
  exact hd

end Backups

/-! ## 3. What is restored -/

/-- From what the peers have acknowledged, each directory tree whose snapshot was ever reported is
restored as it was when it was backed up: its paths, their kinds and the contents of its files, in
whatever order the tasks of `unpack` run. -/
theorem reported_restores (hP : P.Lawful) (hrej : P.RejectsTruncated) (hcdc : CutsUp fastCdc)
    (hdiff : LeadsFrom diffPaths)
    (h : Reach (Backups.step P keys) (Backups.Faithful fastCdc diffPaths) (.start src) t)
    (hinj : Set.InjOn Blob.hash {b | b ∈ t.client.packing.world.added})
    {disk : Disk} (hdisk : HoldsAcknowledged t.client disk) (names : List FileName)
    {files : Folder} (hf : files.Perm disk.index) :
    t.saved.map Prod.fst = t.client.reported ∧
    ∃ ix, BlobIndex.new P keys names files = .ok ix ∧ ∀ e ∈ t.saved,
      SameBelow e.2.host e.2.root → ∃ n, ∀ fuel, n ≤ fuel →
        ∀ schedule : List (Tree × FsPath) → List (Tree × FsPath), (∀ l, (schedule l).Perm l) →
          ∃ d, unpack (Manager.getBlob P keys ix disk) schedule fuel e.1 = .ok d ∧
            ∀ q, d.nodeAt q = e.2.host.fs.node (q ++ e.2.host.base e.2.root) := by
  have hrecorded := Backups.recorded_run hP hrej hcdc hdiff h
  exact ⟨hrecorded.reported, hrecorded.restores hcdc hdiff hinj hdisk names hf⟩

/-- While the directory tree stays as it is, a run of the client is one of its backups. -/
theorem Backups.reach_of_unchanged
    (h : Reach (Upload.step P keys) (fun s a => Sane s a ∧
      ∀ b, a = .pack b → src.Yields fastCdc diffPaths s.packing b) .start s) :
    ∃ saved : List (BlobHash × Source), (∀ e ∈ saved, e.2 = src) ∧
      Reach (Backups.step P keys) (Backups.Faithful fastCdc diffPaths) (.start src)
        ⟨s, src, saved⟩ := by
  induction h with
  | refl => exact ⟨[], by simp, .refl⟩
  | @tail s s' a _ hok hst ih =>
    obtain ⟨saved, hsaved, ih⟩ := ih
    have hnext : ∀ b, (⟨s, src, saved⟩ : Backups).nextSource (b, src) = src := by
      intro b
      unfold Backups.nextSource
      split
      · split <;> rfl
      · rfl
    refine ⟨(⟨s, src, saved⟩ : Backups).nextSaved a, ?_, ih.tail (a, src) ⟨hok.1, ?_⟩ ?_⟩
    · intro e he
      unfold Backups.nextSaved at he
      split at he
      · rcases List.mem_cons.mp he with rfl | he
        · rfl
        · exact hsaved e he
      · exact hsaved e he
    · intro b hb
      rw [hnext]
      exact hok.2 b hb
    · rw [Backups.step, hst, Option.map_some, hnext]

end

/-! ## 4. A directory tree that comes back -/

section

def oneFileTree : FileSystem where
  entries := [([], .dir), ([['f']], .file [1, 2, 3])]
  nodup := by decide
  closed := by decide

def oneFileSource : Source := ⟨hostOf oneFileTree, ⟨true, []⟩⟩

/-- What `packAndSend` reads is this directory tree. -/
def readsOneFile (s : State) : Action → Bool
  | .pack (.openManager _ _ _ queue) => decide (queue = [.root])
  | .pack (.file name metadata chunks) =>
    match s.packing.pc with
    | .files node tasks => decide ((oneFileSource.fileNames node)[tasks.length]? = some name ∧
        metadata = oneFileSource.host.metadata (name :: oneFileSource.path node) ∧
        chunks = fileChunks cutAtMax (oneFileSource.host.fileContent
          (name :: oneFileSource.path node)))
    | _ => true
  | .pack .fileFails => false
  | .pack (.join name metadata) =>
    match s.packing.pc with
    | .files node tasks =>
      decide (oneFileSource.host.node (getNodePath oneFileSource.root node) = some .dir ∧
        tasks.length = (oneFileSource.fileNames node).length ∧
        (∀ task ∈ tasks, task.pc = .done true) ∧
        name = (getNodePath oneFileSource.root node).fileName ∧
        metadata = oneFileSource.host.metadata (oneFileSource.path node))
    | _ => true
  | _ => true

theorem oneFile_scanned : (browseDirTree stripBase oneFileSource.host oneFileSource.root
    9).toOption.any (fun scan => decide (scan.queue = [.root])) = true := by
  decide +kernel

theorem oneFileSource_sameBelow : SameBelow oneFileSource.host oneFileSource.root := by
  have hroot : oneFileSource.host.node oneFileSource.root = some .dir := by decide
  exact (leadsBack_of_cases hroot (Or.inl rfl)).sameBelow hroot

theorem yields_of_readsOneFile {s : State} {a : Action} (h : readsOneFile s a = true)
    {b : PackAction} (hb : a = .pack b) :
    oneFileSource.Yields cutAtMax stripBase s.packing b := by
  subst hb
  cases b with
  | openManager names files size queue =>
    obtain ⟨scan, hscan, hqueue⟩ := (Option.any_eq_true _ _).mp oneFile_scanned
    exact ⟨9, scan, eq_ok_of_toOption hscan,
      (of_decide_eq_true h).trans (of_decide_eq_true hqueue).symm⟩
  | file name metadata chunks =>
    intro node tasks hpc
    simp only [readsOneFile, hpc] at h
    exact of_decide_eq_true h
  | fileFails => cases h
  | join name metadata =>
    intro node tasks hpc
    simp only [readsOneFile, hpc] at h
    exact of_decide_eq_true h
  | _ => trivial

theorem readsOneFile_run : (runWhen (step .transparent sampleKeys)
    (fun s a => oneId s a && readsOneFile s a) .start packAndSend).isSome = true := by
  decide +kernel

/-- Its backup is reported. -/
theorem oneFile_reach : ∃ (s : State) (saved : List (BlobHash × Source)),
    packAndReport = some s ∧ saved ≠ [] ∧ (∀ e ∈ saved, e.2 = oneFileSource) ∧
    Reach (Backups.step .transparent sampleKeys) (Backups.Faithful cutAtMax stripBase)
      (.start oneFileSource) ⟨s, oneFileSource, saved⟩ ∧
    Set.InjOn Blob.hash {b | b ∈ s.packing.world.added} ∧
    ∀ a ∈ s.acknowledged, s.gone a.2.1 = some a.2.2 := by
  obtain ⟨s, hsteps, hreach, hreported, -, hinj, hgone⟩ :=
    packAndSend_reachWhen readsOneFile readsOneFile_run (fun _ _ => rfl) fun _ => rfl
  obtain ⟨saved, hsrc, hsaved⟩ := Backups.reach_of_unchanged
    (hreach.mono fun _ _ h => ⟨h.1, fun _ => yields_of_readsOneFile h.2⟩)
  have hrecorded := Backups.recorded_run Primitives.transparent_lawful
    Primitives.transparent_rejectsTruncated cutsUp_cutAtMax leadsFrom_stripBase hsaved
  refine ⟨s, saved, hsteps, ?_, hsrc, hsaved, hinj, hgone⟩
  rintro rfl
  exact hreported hrecorded.reported.symm

/-- The file comes back from the peer. -/
theorem reported_restores_one : ∃ (root : BlobHash) (disk : Disk) (ix : BlobIndex) (n : ℕ),
    BlobIndex.new .transparent sampleKeys [] disk.index = .ok ix ∧ ∀ fuel, n ≤ fuel →
      ∃ d, unpack (Manager.getBlob .transparent sampleKeys ix disk) id fuel root = .ok d ∧
        d.nodeAt [['f']] = some (.file [1, 2, 3]) := by
  obtain ⟨s, saved, -, hsome, hsrc, hreach, hinj, hgone⟩ := oneFile_reach
  let disk : Disk :=
    ⟨s.gone, s.index.acknowledged.map fun a => (indexFileName a.2.1, a.2.2)⟩
  have hdisk : HoldsAcknowledged s disk := ⟨hgone, by simp [disk, eq_comm]⟩
  obtain ⟨-, ix, hnew, hrestores⟩ := reported_restores Primitives.transparent_lawful
    Primitives.transparent_rejectsTruncated cutsUp_cutAtMax leadsFrom_stripBase hreach hinj hdisk []
    (.refl _)
  obtain ⟨e, he⟩ := List.exists_mem_of_ne_nil _ hsome
  obtain ⟨n, hn⟩ := hrestores e he (hsrc e he ▸ oneFileSource_sameBelow)
  refine ⟨e.1, disk, ix, n, hnew, ?_⟩
  intro fuel hfuel
  obtain ⟨d, hd, hnodes⟩ := hn fuel hfuel id fun l => .refl l
  refine ⟨d, hd, ?_⟩
  rw [hnodes, hsrc e he]
  rfl

end

end Backuwup.Client.Upload
