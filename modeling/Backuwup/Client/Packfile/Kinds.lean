/-
# The kinds of deduplicated blobs

The index knows blobs by their hash alone, and the kind of a blob is stored with its first
arrival.  `kinds_kept_iff` says when every blob is fetched with the kind it was added with: if
and only if no two blobs that were added share their hash and differ in their kind.  A file
whose content is the serialization of a tree breaks that, and then the tree cannot be fetched
(`tree_fetched_as_chunk`).
-/
import Backuwup.Client.Packfile.RoundTrip
import Backuwup.Client.Tree

namespace Backuwup.Client

/-! ## 1. The property and its condition -/

/-- Every blob is fetched with its kind, and no tree is rejected for not being one. -/
structure KindsKept (get : GetBlob) (blobs : List Blob) : Prop where
  kind : ∀ b ∈ blobs, ∃ b', get b.hash = .ok (some b') ∧ b'.kind = b.kind
  tree : ∀ b ∈ blobs, b.kind = .tree → fetchTree get b.hash ≠ .error (.notATree b.hash)

/-- No two blobs of permitted size share their hash and differ in their kind. -/
def World.OneKind (w : World) : Prop :=
  ∀ b ∈ w.added, ∀ b' ∈ w.added, b.data.length ≤ blobMaxUncompressedSize →
    b'.data.length ≤ blobMaxUncompressedSize → b.hash = b'.hash → b.kind = b'.kind

/-- The second part of the property follows from the first. -/
theorem KindsKept.of_kind {get : GetBlob} {blobs : List Blob}
    (h : ∀ b ∈ blobs, ∃ b', get b.hash = .ok (some b') ∧ b'.kind = b.kind) :
    KindsKept get blobs where
  kind := h
  tree b hb htree := by
    obtain ⟨b', hget, hkind⟩ := h b hb
    rw [fetchTree, hget]
    simp only [hkind, htree, ne_eq, not_true_eq_false, if_false]
    split <;> simp

/-! ## 2. When kinds are kept -/

/-- After any number of sessions in which nothing fails and a reload, every accepted blob is
fetched with the kind it was accepted with, if and only if no two blobs clash. -/
theorem kinds_kept_iff {P : Primitives} {keys : KeyManager} {w : World} (hP : P.Lawful)
    (h : Transition.Reach (managerStep P keys) (Undisturbed P) .start w)
    (hclosed : w.session = none) {names : List FileName} {files : Folder}
    (hf : files.Perm w.disk.index) :
    ∃ ix, BlobIndex.new P keys names files = .ok ix ∧
      (KindsKept (Manager.getBlob P keys ix w.disk) w.accepted ↔ w.OneKind) := by
  obtain ⟨-, -, hacc, hclean⟩ := clean_run hP h
  have hmem := fun b => mem_accepted_iff (b := b) hclean hacc hclosed
  obtain ⟨ix, hnew, hget⟩ := getBlob_new hP h hclosed names hf
  refine ⟨ix, hnew, ?_⟩
  constructor
  · -- both blobs of a pair are fetched as one
    intro hk b hb b' hb' hsize hsize' heq
    obtain ⟨p, hp, hkind⟩ := hk.kind b ((hmem b).mpr ⟨hb, hsize⟩)
    obtain ⟨p', hp', hkind'⟩ := hk.kind b' ((hmem b').mpr ⟨hb', hsize'⟩)
    rw [← heq, hp] at hp'
    rw [← hkind, ← hkind', Option.some.inj (Except.ok.inj hp')]
  · intro hone
    refine .of_kind ?_
    intro b hb
    rcases hget b.hash with ⟨p, hp, heq, hres⟩ | ⟨-, hnone⟩
    · have hp' := (hmem p).mp hp
      have hb' := (hmem b).mp hb
      exact ⟨p, hres, hone p hp'.1 b hb'.1 hp'.2 hb'.2 heq⟩
    · exact absurd rfl (hnone b hb)

/-- Chunks and a tree without a clash, one of the chunks added twice. -/
theorem kinds_kept_three : ∃ (w : World) (ix : BlobIndex), w.accepted = sampleBlobs ∧
    KindsKept (Manager.getBlob .transparent sampleKeys ix w.disk) w.accepted := by
  obtain ⟨w, hreach, hclosed, hacc, hadd⟩ := sampleBlobs_accepted
  obtain ⟨ix, -, hiff⟩ := @kinds_kept_iff .transparent sampleKeys w
    Primitives.transparent_lawful hreach hclosed [] _ (List.Perm.refl _)
  have hone : ∀ b ∈ sampleBlobs, ∀ b' ∈ sampleBlobs, b.hash = b'.hash → b.kind = b'.kind := by
    decide
  refine ⟨w, ix, hacc, hiff.mpr fun b hb b' hb' _ _ heq => ?_⟩
  rw [hadd] at hb hb'
  exact hone b hb b' hb' heq

/-- An empty directory, and the file whose content is its serialization. -/
def clashTree : Tree := ⟨.dir, [], ⟨none, none, none⟩, [], none⟩

def clashChunk : Blob := { treeBlob .transparent clashTree with kind := .fileChunk }

/-- The file is added before the directory. -/
def clashRun : List ManagerAction :=
  [.openManager [] [] 0,
    .addBlob clashChunk, .check 0 (some (FixedBytes.fill 7)), .enqueue 0, .trigger 0,
    .addBlob (treeBlob .transparent clashTree), .check 1 (some (FixedBytes.fill 8)), .enqueue 1,
    .trigger 1,
    .flush, .flushWrite ⟨FixedBytes.fill 9, .ok, fun _ => .ok⟩, .flushIndex .ok]

/-- Both blobs are accepted, and the directory is fetched as a chunk of a file. -/
theorem tree_fetched_as_chunk : ∃ (w : World) (ix : BlobIndex),
    Transition.run (managerStep .transparent sampleKeys) .start clashRun = some w ∧
    w.session = none ∧ w.accepted = [clashChunk, treeBlob .transparent clashTree] ∧
    BlobIndex.new .transparent sampleKeys (w.disk.index.map Prod.fst) w.disk.index = .ok ix ∧
    Manager.getBlob .transparent sampleKeys ix w.disk (treeHash .transparent clashTree)
      = .ok (some clashChunk) ∧
    fetchTree (Manager.getBlob .transparent sampleKeys ix w.disk) (treeHash .transparent clashTree)
      = .error (.notATree (treeHash .transparent clashTree)) :=
  ⟨_, _, rfl, rfl, rfl, rfl, rfl, rfl⟩

end Backuwup.Client
