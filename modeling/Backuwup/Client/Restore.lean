/-
# The end of a restore (`run_restore`, `dir_unpacker.rs`)

`run_restore` unpacks the snapshot, and when `unpack` has succeeded it deletes the packfiles that
the peers have sent back and reports success.  `unpack` fails when a tree is missing or a
directory cannot be created, but the errors of `restore_file` are only printed.  So success means
that everything has been restored if and only if a directory is lost too, or no file is
(`success_iff_restored`).
-/
import Backuwup.Client.DirRoundTrip
import Backuwup.Client.Tampering

namespace Backuwup.Client

/-! ## 1. The received packfiles -/

/-- The folder of the received packfiles, and what `set_finished` is told. -/
structure RestoreEnd where
  received : Disk
  success : Bool

/-- Whether `get_size` succeeds, and what a `remove_dir_all` that fails leaves of the folder. -/
structure CleanUp where
  size : Bool
  removeDirAll : Option Disk

/-- `run_restore` after `unpack` has returned, and `request_restore` after that. -/
def endRestore (cleanUp : CleanUp) (received : Disk) : Except RestoreError Dest → RestoreEnd
  | .error _ => ⟨received, false⟩
  | .ok _ =>
    if cleanUp.size then
      match cleanUp.removeDirAll with
      | none => ⟨.empty, true⟩
      | some rest => ⟨rest, false⟩
    else ⟨received, false⟩

/-! ## 2. Files that are lost -/

/-- The chunker yields no empty chunk. -/
def NonemptyChunks (fastCdc : Bytes → List Bytes) : Prop := ∀ data, ∀ c ∈ fastCdc data, c ≠ []

namespace Attempt

variable (a : Attempt)

/-- The file can be opened. -/
def Opens (q : List FileName) : Prop :=
  a.io.create q = false ∧ a.start.dest.nodeAt q ≠ some .dir

/-- Every chunk of the file is read from the store and written. -/
def Writes (P : Primitives) (q : List FileName) (chunks : List Bytes) : Prop :=
  ∀ i c, chunks[i]? = some c →
    (∃ blob, a.get (P.hash c) = .ok (some blob)) ∧ a.io.writeAll q i = none

/-- A file of the snapshot is not lost: it is opened, and unless it is empty all its chunks are
read and written; or it cannot be opened, but has been there before. -/
def RestoresFile (P : Primitives) (fastCdc : Bytes → List Bytes) (q : List FileName)
    (content : Bytes) : Prop :=
  a.Opens q ∧ (content ≠ [] → a.Writes P q (fileChunks fastCdc content)) ∨
    ¬ a.Opens q ∧ a.start.dest.nodeAt q = some (.file content)

variable {a} {P : Primitives} {fastCdc : Bytes → List Bytes}

/-- All chunks are in the file if and only if each of them has been read and written. -/
theorem writeChunks_eq_flatten {get : GetBlob} (fault : ℕ → Option ℕ) {chunks : List Bytes}
    (hdata : ∀ c ∈ chunks, SameData get (chunkBlob P c)) (hne : ∀ c ∈ chunks, c ≠ []) :
    (writeChunks get fault (chunks.map P.hash)).1 = chunks.flatten ↔
      ∀ i c, chunks[i]? = some c →
        (∃ blob, get (P.hash c) = .ok (some blob)) ∧ fault i = none := by
  induction chunks generalizing fault with
  | nil => simp [writeChunks]
  | cons c chunks ih =>
    have hc : c ≠ [] := hne c List.mem_cons_self
    rw [List.map_cons, writeChunks, List.flatten_cons]
    cases hget : get (P.hash c) with
    | error e =>
      refine iff_of_false (by simp [hc]) fun hall => ?_
      obtain ⟨⟨blob, hblob⟩, -⟩ := hall 0 c rfl
      cases hget.symm.trans hblob
    | ok r =>
      cases r with
      | none =>
        refine iff_of_false (by simp [hc]) fun hall => ?_
        obtain ⟨⟨blob, hblob⟩, -⟩ := hall 0 c rfl
        cases hget.symm.trans hblob
      | some blob =>
        have hblob : blob.data = c := (hdata c List.mem_cons_self blob hget).2
        cases hfault : fault 0 with
        | some n =>
          refine iff_of_false (fun heq => ?_) fun hall => ?_
          · -- the last byte of the chunk is missing
            have hlen := congrArg List.length heq
            have hpos := List.length_pos_iff.mpr hc
            simp only [hblob, List.length_take, List.length_dropLast, List.length_append] at hlen
            omega
          · cases (hall 0 c rfl).2.symm.trans hfault
        | none =>
          have hrest := ih (fun i => fault (i + 1))
            (fun c hc => hdata c (List.mem_cons_of_mem _ hc))
            (fun c hc => hne c (List.mem_cons_of_mem _ hc))
          simp only [hblob, List.append_cancel_left_eq, hrest]
          constructor
          · intro hall i c' hi
            cases i with
            | zero =>
              obtain rfl := Option.some.inj hi
              exact ⟨⟨blob, hget⟩, hfault⟩
            | succ i => exact hall i c' hi
          · intro hall i c' hi
            exact hall (i + 1) c' hi

/-- Of a file of the snapshot its content is left if and only if it is not lost. -/
theorem leftFile_eq_iff (hcuts : CutsUp fastCdc) (hne : NonemptyChunks fastCdc) {content : Bytes}
    (hdata : ∀ c ∈ fileChunks fastCdc content, SameData a.get (chunkBlob P c))
    (q : List FileName) :
    a.leftFile ((fileChunks fastCdc content).map P.hash) q = some (.file content) ↔
      a.RestoresFile P fastCdc q content := by
  unfold leftFile RestoresFile
  by_cases hopen : a.Opens q
  · obtain ⟨hcreate, hdir⟩ := hopen
    rw [if_neg (by simp [hcreate, hdir]), Option.some.injEq, Node.file.injEq]
    simp only [show a.Opens q from ⟨hcreate, hdir⟩, true_and, not_true_eq_false, false_and,
      or_false]
    by_cases hempty : content = []
    · -- an empty file is one empty chunk
      subst hempty
      simp only [ne_eq, not_true_eq_false, false_implies, iff_true]
      have hnil : ∀ blob, a.get (P.hash []) = .ok (some blob) → blob.data = [] := fun blob hblob =>
        (hdata [] (by simp [fileChunks]) blob hblob).2
      simp only [fileChunks, List.length_nil, not_lt_zero, if_false, List.map_cons, List.map_nil,
        writeChunks]
      split
      · rename_i blob hblob
        rw [hnil blob hblob]
        split <;> simp
      · rfl
    · have hchunks : ∀ c ∈ fileChunks fastCdc content, c ≠ [] := by
        unfold fileChunks
        split
        · exact hne content
        · intro c hc
          rwa [List.mem_singleton.mp hc]
      have hiff := writeChunks_eq_flatten (a.io.writeAll q) hdata hchunks
      rw [flatten_fileChunks hcuts] at hiff
      simp only [ne_eq, hempty, not_false_eq_true, true_implies]
      exact hiff
  · have hcond : a.io.create q = true ∨ a.start.dest.nodeAt q = some .dir := by
      by_contra hnot
      obtain ⟨hcreate, hdir⟩ := not_or.mp hnot
      exact hopen ⟨by simpa using hcreate, hdir⟩
    simp [hcond, hopen]

end Attempt

/-! ## 3. Success and what has been restored -/

section

variable {P : Primitives} {fastCdc : Bytes → List Bytes} {host : Host} {root : FsPath}
  {base : List FileName} {done : List (FsNode × Tree)} {st : PackState} {a : Attempt}

/-- After `unpack` has succeeded, every directory and file of the snapshot is at its path; when it
has failed, the received packfiles are kept and no success is reported. -/
structure SuccessMeansRestored (host : Host) (root : FsPath) (done : List (FsNode × Tree))
    (cleanUp : CleanUp) (received : Disk) (r : Except RestoreError Dest) : Prop where
  restored : ∀ d, r = .ok d → ∀ q node, restoredNode host root done done q = some node →
    d.nodeAt q = some node
  kept : ∀ e, r = .error e → endRestore cleanUp received r = ⟨received, false⟩

/-- No file of the snapshot is lost. -/
def Attempt.RestoresFiles (a : Attempt) (P : Primitives) (fastCdc : Bytes → List Bytes)
    (host : Host) (root : FsPath) (done : List (FsNode × Tree)) : Prop :=
  ∀ q content, restoredNode host root done done q = some (.file content) →
    a.RestoresFile P fastCdc q content

/-- A file of the snapshot lies in a sealed directory. -/
theorem restoredNode_eq_file {q : List FileName} {content : Bytes}
    (hq : restoredNode host root done done q = some (.file content)) :
    ∃ e ∈ done, ∃ name, q = name :: e.1.relPath ∧ name :: e.1.relPath ∉ donePaths done ∧
      host.fs.node (name :: (e.1.relPath ++ host.base root)) = some (.file content) := by
  cases q with
  | nil => simp [restoredNode] at hq
  | cons name q =>
    rw [restoredNode, Option.ite_none_right_eq_some] at hq
    obtain ⟨hmem, hfull⟩ := hq
    obtain ⟨e, he, rfl⟩ := List.mem_map.mp hmem
    refine ⟨e, he, name, rfl, ?_⟩
    rw [fullNode] at hfull
    split at hfull
    · simp at hfull
    · rename_i hnot
      refine ⟨hnot, ?_⟩
      split at hfull
      · rename_i content' hcontent
        rw [← hfull]
        exact hcontent
      · cases hfull

/-- The directories of the snapshot are left in any case. -/
theorem Attempt.leftNode_dir {q : List FileName}
    (hq : restoredNode host root done done q = some .dir) :
    a.leftNode P fastCdc host root done done q = some .dir := by
  cases q with
  | nil => rfl
  | cons name q =>
    rw [restoredNode, Option.ite_none_right_eq_some, fullNode] at hq
    obtain ⟨hmem, hfull⟩ := hq
    rw [Attempt.leftNode, if_pos hmem, Attempt.leftIn]
    split at hfull
    · rename_i hdone
      rw [if_pos hdone]
    · split at hfull <;> simp at hfull

variable (h : Snapshot P fastCdc host root base done st)
include h

/-- Where the snapshot has a file, that file is left if it is not lost. -/
theorem Snapshot.leftNode_file (hne : NonemptyChunks fastCdc)
    (hdata : ∀ b ∈ st.added, SameData a.get b) {q : List FileName} {content : Bytes}
    (hq : restoredNode host root done done q = some (.file content)) :
    a.leftNode P fastCdc host root done done q = some (.file content) ↔
      a.RestoresFile P fastCdc q content := by
  obtain ⟨e, he, name, rfl, hnot, hcontent⟩ := restoredNode_eq_file hq
  have hmem : e.1.relPath ∈ donePaths done := List.mem_map.mpr ⟨e, he, rfl⟩
  have hname := mem_fileNames.mpr ⟨content, hcontent⟩
  rw [Attempt.leftNode, if_pos hmem, Attempt.leftIn, if_neg hnot, List.cons_append, hcontent]
  refine Attempt.leftFile_eq_iff h.cuts hne (fun c hc => hdata _ ?_) _
  refine h.sealed.files e he name hname _ (List.mem_append_left _ (List.mem_map.mpr ⟨c, ?_, rfl⟩))
  simp only [Host.fileContent, hcontent]
  exact hc

/-- Success means that the whole snapshot has been restored, if and only if a directory is lost as
well, which is an error, or no file is lost. -/
theorem success_iff_restored (hne : NonemptyChunks fastCdc)
    (hdata : ∀ b ∈ st.added, SameData a.get b) {fuel : ℕ}
    (hfuel : Enough P fastCdc host root done fuel)
    {schedule : List (Tree × FsPath) → List (Tree × FsPath)} (hsched : ∀ l, (schedule l).Perm l)
    (cleanUp : CleanUp) (received : Disk) :
    SuccessMeansRestored host root done cleanUp received
        (a.io.unpack a.start.dest a.get schedule fuel st.rootTreeHash) ↔
      ¬ a.RestoresDirs P fastCdc host root done ∨ a.RestoresFiles P fastCdc host root done := by
  rcases h.unpack_spec hfuel hdata hsched with ⟨hdirs, d, hd, hnodes⟩ | ⟨hnot, err, herr⟩
  · rw [hd]
    constructor
    · intro hs
      refine .inr fun q content hq => (h.leftNode_file hne hdata hq).mp ?_
      rw [← hnodes]
      exact hs.restored d rfl q _ hq
    · intro hcond
      refine ⟨fun d' hd' q node hq => ?_, nofun⟩
      obtain rfl := Except.ok.inj hd'
      rw [hnodes]
      cases node with
      | dir => exact Attempt.leftNode_dir hq
      | file content =>
        exact (h.leftNode_file hne hdata hq).mpr (hcond.resolve_left (not_not.mpr hdirs) q _ hq)
  · rw [herr]
    exact iff_of_true ⟨nofun, fun _ _ => rfl⟩ (.inl hnot)

end

/-- The blobs that a manager reads from a damaged folder have the data of those that were added. -/
theorem openAndGet_sameData {P : Primitives} {keys : KeyManager} {h : History}
    (hdecompress : ∀ data capacity, data.length ≤ capacity →
      P.decompress (P.compress data) capacity = some data)
    (hreach : Transition.Reach (historyStep P keys) (HashesData P) .start h)
    (hcipher : AcceptsOnly P keys h.encryptions) (hkeys : KeysDistinct P keys h.world.added)
    (hinj : Set.InjOn P.hash {data | ∃ b ∈ h.world.added, b.data = data})
    (names : List FileName) (files : Folder) (disk : Disk) :
    ∀ b ∈ h.world.added, SameData (openAndGet P keys names files disk) b := by
  intro b hb blob hblob
  have hI := tracked_run hreach
  obtain ⟨hmem, hhash⟩ := openAndGet_original hdecompress hI hcipher hkeys hinj hblob
  exact ⟨hhash, hI.data_eq hinj hmem hb hhash⟩

/-! ## 4. One file -/

section

theorem nonemptyChunks_cutAtMax : NonemptyChunks cutAtMax := by
  have hpieces : ∀ fuel (xs : Bytes), ∀ c ∈ chunks blobMaxUncompressedSize fuel xs, c ≠ [] := by
    intro fuel
    induction fuel with
    | zero => simp [chunks]
    | succ fuel ih =>
      intro xs c hc
      cases xs with
      | nil => simp [chunks] at hc
      | cons x xs =>
        simp only [chunks, List.isEmpty_cons, Bool.false_eq_true, if_false, List.mem_cons] at hc
        rcases hc with rfl | hc
        · simp [blobMaxUncompressedSize]
        · exact ih _ c hc
  exact fun data => hpieces _ data

/-- `/a`. -/
def smallRoot : FsPath := ⟨true, [['a']]⟩

/-- The store without the blob of one hash. -/
def losing (lost : BlobHash) (get : GetBlob) : GetBlob := fun hash =>
  if hash = lost then .ok none else get hash

theorem sameData_of_stored {get : GetBlob} {b : Blob} (h : get b.hash = .ok (some b)) :
    SameData get b := by
  intro blob hblob
  obtain rfl := Option.some.inj (Except.ok.inj (h.symm.trans hblob))
  exact ⟨rfl, rfl⟩

theorem sameData_losing {get : GetBlob} {b : Blob} (h : SameData get b) (lost : BlobHash) :
    SameData (losing lost get) b := by
  intro blob hblob
  unfold losing at hblob
  split at hblob
  · cases hblob
  · exact h blob hblob

theorem exists_smallSnapshot : ∃ done st, backupOf smallTree smallRoot = some st ∧
    (∀ b ∈ st.added, storeOf st.added b.hash = .ok (some b)) ∧
    Snapshot .transparent cutAtMax (hostOf smallTree) smallRoot [['a']] done st := by
  obtain ⟨st, hst, hstored⟩ := (Option.any_eq_true _ _).mp
    (smallTree_stored smallRoot (by simp [smallRoot]))
  obtain ⟨fuel, scan, hscan, hpack⟩ := packs_of_backupOf hst
  obtain ⟨done, hsnap⟩ := snapshot_of_packs leadsFrom_stripBase cutsUp_cutAtMax hscan hpack
  exact ⟨done, st, hst, of_decide_eq_true hstored, hsnap⟩

/-- With the whole store everything is restored. -/
theorem success_iff_restored_small : ∃ (done : List (FsNode × Tree)) (st : PackState) (fuel : ℕ),
    SuccessMeansRestored (hostOf smallTree) smallRoot done ⟨true, none⟩ .empty
      (IoFaults.noFault.unpack .empty (storeOf st.added) id fuel st.rootTreeHash) := by
  obtain ⟨done, st, -, hstored, hsnap⟩ := exists_smallSnapshot
  obtain ⟨n, hn⟩ := exists_enough .transparent cutAtMax (hostOf smallTree) smallRoot done
  refine ⟨done, st, n, (success_iff_restored (a := ⟨storeOf st.added, .empty, .noFault⟩) hsnap
    nonemptyChunks_cutAtMax (fun b hb => sameData_of_stored (hstored b hb)) (hn n (le_refl n))
    (fun l => .refl l) ⟨true, none⟩ .empty).mpr (.inr ?_)⟩
  intro q content hq
  obtain ⟨e, he, name, rfl, -, hcontent⟩ := restoredNode_eq_file hq
  refine .inl ⟨⟨rfl, ?_⟩, fun _ i c hi => ⟨⟨chunkBlob .transparent c, ?_⟩, rfl⟩⟩
  · change Dest.empty.nodeAt _ ≠ _
    rw [Dest.nodeAt_empty]
    simp
  · refine hstored _ (hsnap.sealed.files e he name (mem_fileNames.mpr ⟨content, hcontent⟩) _
      (List.mem_append_left _ (List.mem_map.mpr ⟨c, ?_, rfl⟩)))
    simp only [Host.fileContent, hcontent]
    exact List.mem_of_getElem? hi

theorem smallTree_lost : (backupOf smallTree smallRoot).any (fun st =>
    match IoFaults.noFault.unpack .empty
        (losing (Primitives.transparent.hash [1, 2, 3]) (storeOf st.added)) id 9
        st.rootTreeHash with
    | .ok d => decide (d.nodeAt [['f']] = some (.file []))
    | .error _ => false) = true := by
  decide +kernel

/-- The blob of the only file is missing.  `unpack` succeeds and the file is empty; the received
packfiles are deleted, and success is reported. -/
theorem lost_file_deleted : ∃ (done : List (FsNode × Tree)) (st : PackState) (get : GetBlob)
    (d : Dest), Snapshot .transparent cutAtMax (hostOf smallTree) smallRoot [['a']] done st ∧
    (∀ b ∈ st.added, SameData get b) ∧
    IoFaults.noFault.unpack .empty get id 9 st.rootTreeHash = .ok d ∧
    d.nodeAt [['f']] = some (.file []) ∧
    smallTree.node [['f'], ['a']] = some (.file [1, 2, 3]) ∧
    (∀ received, endRestore ⟨true, none⟩ received (.ok d) = ⟨.empty, true⟩) ∧
    ∀ received, ¬ SuccessMeansRestored (hostOf smallTree) smallRoot done ⟨true, none⟩ received
      (IoFaults.noFault.unpack .empty get id 9 st.rootTreeHash) := by
  obtain ⟨done, st, hst, hstored, hsnap⟩ := exists_smallSnapshot
  have hlost := smallTree_lost
  rw [hst, Option.any_some] at hlost
  split at hlost
  · rename_i d hd
    have hf : d.nodeAt [['f']] = some (.file []) := of_decide_eq_true hlost
    refine ⟨done, st, _, d, hsnap,
      fun b hb => sameData_losing (sameData_of_stored (hstored b hb)) _, hd, hf, by decide,
      fun _ => rfl, fun received hs => ?_⟩
    have hrestored := hs.restored d hd [['f']] (.file [1, 2, 3])
      ((restoredNode_eq hsnap.scanned _).trans (by decide))
    rw [hf] at hrestored
    cases hrestored
  · cases hlost

end

end Backuwup.Client
