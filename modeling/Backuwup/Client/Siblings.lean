/-
# Siblings of a tree (`split_serialize_tree`, `fetch_full_tree`)

A tree with more children than fit into a blob is stored as several.  The pieces are serialized from
the last to the first, each with the hash of the one that was pushed to the front before it
(`serializeLoop`), and `fetch_full_tree` follows these hashes from the first piece on.

`siblings_lossless`: for any number of children the pieces hold them in order, each piece names the
next, and the walk over the stored blobs fetches each once and yields the tree.
-/
import Backuwup.Client.DirRoundTrip

namespace Backuwup.Client

/-! ## 1. The loop of `split_serialize_tree` -/

/-- The pieces in reverse, numbered; each blob is pushed to the front, and all but the first one
made name the hash at the front. -/
def serializeLoop (P : Primitives) (t : Tree) (pieces : List (List BlobHash)) : List Blob :=
  pieces.reverse.zipIdx.foldl
    (fun blobs piece =>
      treeBlob P { t with
        children := piece.1
        nextSibling := if piece.2 ≠ 0 then blobs.head?.map Blob.hash else none } :: blobs)
    []

/-- The loop yields what the recursion over the pieces does. -/
theorem serializeLoop_eq (P : Primitives) (t : Tree) (pieces : List (List BlobHash)) :
    serializeLoop P t pieces = serializeSiblings P t pieces := by
  induction pieces with
  | nil => rfl
  | cons piece pieces ih =>
    unfold serializeLoop at ih ⊢
    rw [List.reverse_cons, List.zipIdx_append, List.foldl_append, ih]
    cases pieces with
    | nil => rfl
    | cons next pieces =>
      simp [serializeSiblings]

/-! ## 2. A chain of trees -/

/-- Each tree names the blob of the next. -/
def Linked (P : Primitives) : List Tree → Prop
  | [] => True
  | t :: ts => t.nextSibling = ts.head?.map (fun u => (treeBlob P u).hash) ∧ Linked P ts

def siblingTrees (P : Primitives) (t : Tree) : List (List BlobHash) → List Tree
  | [] => []
  | piece :: pieces =>
    let trees := siblingTrees P t pieces
    { t with
      children := piece
      nextSibling := trees.head?.map fun u => (treeBlob P u).hash } :: trees

def splitTrees (P : Primitives) (t : Tree) : List Tree :=
  if t.children.length ≤ treeBlobMaxChildren then [t]
  else siblingTrees P t (chunks treeBlobMaxChildren t.children.length t.children)

section

variable {P : Primitives} {t : Tree} {trees : List Tree}

theorem Linked.nextSibling (h : Linked P trees) {i : ℕ} {u : Tree} (hu : trees[i]? = some u) :
    u.nextSibling = trees[i + 1]?.map fun v => (treeBlob P v).hash := by
  induction trees generalizing i with
  | nil => simp at hu
  | cons first rest ih =>
    cases i with
    | zero =>
      obtain rfl : first = u := by simpa using hu
      rw [h.1, List.getElem?_cons_succ, List.head?_eq_getElem?]
    | succ i => exact ih h.2 hu

variable (P t) in
theorem serializeSiblings_eq (pieces : List (List BlobHash)) :
    serializeSiblings P t pieces = (siblingTrees P t pieces).map (treeBlob P) := by
  induction pieces with
  | nil => rfl
  | cons piece pieces ih =>
    simp only [serializeSiblings, siblingTrees, List.map_cons, ih, List.head?_map, Option.map_map]
    rfl

variable (P t) in
theorem linked_siblingTrees (pieces : List (List BlobHash)) :
    Linked P (siblingTrees P t pieces) := by
  induction pieces with
  | nil => trivial
  | cons piece pieces ih => exact ⟨rfl, ih⟩

variable (P t) in
theorem children_siblingTrees (pieces : List (List BlobHash)) :
    (siblingTrees P t pieces).map Tree.children = pieces := by
  induction pieces with
  | nil => rfl
  | cons piece pieces ih => rw [siblingTrees, List.map_cons, ih]

theorem head_siblingTrees {pieces : List (List BlobHash)} {u : Tree}
    (hu : u ∈ siblingTrees P t pieces) :
    u.kind = t.kind ∧ u.name = t.name ∧ u.metadata = t.metadata := by
  induction pieces with
  | nil => cases hu
  | cons piece pieces ih =>
    rcases List.mem_cons.mp hu with rfl | hu
    · exact ⟨rfl, rfl, rfl⟩
    · exact ih hu

/-- What the pieces of a tree are: what the loop serializes, with its kind, name and metadata in
each, at most so many children, all of them in order, and the hash of the next piece in each but the
last. -/
structure SplitInto (P : Primitives) (t : Tree) (trees : List Tree) : Prop where
  blobs : splitSerializeTree P t = trees.map (treeBlob P)
  loop : treeBlobMaxChildren < t.children.length → trees.map (treeBlob P)
    = serializeLoop P t (chunks treeBlobMaxChildren t.children.length t.children)
  nonempty : trees ≠ []
  same : ∀ u ∈ trees, u.kind = t.kind ∧ u.name = t.name ∧ u.metadata = t.metadata
  length_le : ∀ u ∈ trees, u.children.length ≤ treeBlobMaxChildren
  children : trees.flatMap Tree.children = t.children
  nextSibling : ∀ (i : ℕ) (u : Tree), trees[i]? = some u →
    u.nextSibling = trees[i + 1]?.map fun v => (treeBlob P v).hash

theorem linked_splitTrees (hsib : t.nextSibling = none) : Linked P (splitTrees P t) := by
  unfold splitTrees
  split
  · exact ⟨hsib, trivial⟩
  · exact linked_siblingTrees P t _

theorem splitInto_splitTrees (hsib : t.nextSibling = none) : SplitInto P t (splitTrees P t) := by
  have hlinked := linked_splitTrees (P := P) hsib
  by_cases hsmall : t.children.length ≤ treeBlobMaxChildren
  · have htrees : splitTrees P t = [t] := if_pos hsmall
    rw [htrees] at hlinked ⊢
    refine ⟨if_pos hsmall, fun hlarge => absurd hsmall (not_le.mpr hlarge), by simp, ?_, ?_,
      by simp, fun i u hu => hlinked.nextSibling hu⟩
    · intro u hu
      obtain rfl := List.mem_singleton.mp hu
      exact ⟨rfl, rfl, rfl⟩
    · intro u hu
      obtain rfl := List.mem_singleton.mp hu
      exact hsmall
  · have htrees : splitTrees P t = siblingTrees P t
        (chunks treeBlobMaxChildren t.children.length t.children) := if_neg hsmall
    have hpieces := children_siblingTrees P t
      (chunks treeBlobMaxChildren t.children.length t.children)
    rw [htrees] at hlinked ⊢
    refine ⟨?_, fun _ => ?_, ?_, fun u hu => head_siblingTrees hu, ?_, ?_,
      fun i u hu => hlinked.nextSibling hu⟩
    · rw [← serializeSiblings_eq]
      exact if_neg hsmall
    · rw [serializeLoop_eq, serializeSiblings_eq]
    · intro hnil
      rw [hnil] at hpieces
      refine chunks_ne_nil ?_ hpieces.symm
      intro h0
      simp [h0] at hsmall
    · intro u hu
      have hmem := List.mem_map_of_mem (f := Tree.children) hu
      rw [hpieces] at hmem
      exact length_le_of_mem_chunks hmem
    · rw [List.flatMap, hpieces]
      exact flatten_chunks (by decide) (le_refl _)

/-! ## 3. The walk -/

/-- The loop of `fetch_full_tree` fetches each tree of a chain once. -/
theorem fetchSiblings_linked {get : GetBlob} (h : Linked P trees)
    (henc : ∀ u ∈ trees, u.Encodable)
    (hget : ∀ u ∈ trees, get (treeBlob P u).hash = .ok (some (treeBlob P u))) (fuel : ℕ) :
    fetchSiblings get fuel (trees.head?.map fun u => (treeBlob P u).hash)
      = if trees.length ≤ fuel then .ok (trees.flatMap Tree.children) else .error .outOfFuel := by
  induction trees generalizing fuel with
  | nil => cases fuel <;> rfl
  | cons u rest ih =>
    cases fuel with
    | zero => rfl
    | succ fuel =>
      have hfetch := fetchTree_treeBlob (henc u List.mem_cons_self) (hget u List.mem_cons_self)
      have hrest := ih h.2 (fun v hv => henc v (List.mem_cons_of_mem _ hv))
        (fun v hv => hget v (List.mem_cons_of_mem _ hv)) fuel
      simp only [List.head?_cons, Option.map_some, fetchSiblings, hfetch, h.1, hrest,
        List.length_cons, Nat.add_le_add_iff_right]
      by_cases hle : rest.length ≤ fuel
      · simp only [if_pos hle, List.flatMap_cons]
      · simp only [if_neg hle]

/-- So does `fetch_full_tree`: with one fetch less it is not through. -/
theorem fetchFullTree_linked {get : GetBlob} {first : Tree} {rest : List Tree}
    (h : Linked P (first :: rest)) (henc : ∀ u ∈ first :: rest, u.Encodable)
    (hget : ∀ u ∈ first :: rest, get (treeBlob P u).hash = .ok (some (treeBlob P u))) (fuel : ℕ) :
    fetchFullTree get fuel (treeBlob P first).hash
      = if (first :: rest).length ≤ fuel + 1 then
          .ok { first with children := (first :: rest).flatMap Tree.children }
        else .error .outOfFuel := by
  have hfetch := fetchTree_treeBlob (henc first List.mem_cons_self) (hget first List.mem_cons_self)
  have hrest := fetchSiblings_linked h.2 (fun v hv => henc v (List.mem_cons_of_mem _ hv))
    (fun v hv => hget v (List.mem_cons_of_mem _ hv)) fuel
  simp only [fetchFullTree, hfetch, h.1, hrest, List.length_cons, Nat.add_le_add_iff_right]
  by_cases hle : rest.length ≤ fuel
  · simp only [if_pos hle, List.flatMap_cons]
  · simp only [if_neg hle]

/-- Every blob can be had back from the store of all of them, if the hash tells their data apart. -/
theorem storeOf_mem {blobs : List Blob} (hhash : ∀ b ∈ blobs, b = ⟨P.hash b.data, .tree, b.data⟩)
    (hinj : Set.InjOn P.hash {data | ∃ b ∈ blobs, b.data = data}) :
    ∀ b ∈ blobs, storeOf blobs b.hash = .ok (some b) := by
  intro b hb
  cases hfind : blobs.find? fun b' => b'.hash = b.hash with
  | none => exact absurd (List.find?_eq_none.mp hfind b hb) (by simp)
  | some b' =>
    have hb' := List.mem_of_find?_eq_some hfind
    have heq : b'.hash = b.hash := by simpa using List.find?_some hfind
    rw [hhash b' hb', hhash b hb] at heq
    have hdata := hinj ⟨b', hb', rfl⟩ ⟨b, hb, rfl⟩ heq
    have hsame : b' = b := by rw [hhash b' hb', hhash b hb, hdata]
    rw [storeOf, hfind, hsame]

/-- A tree with any number of children is split without loss: its pieces are a chain, and from the
store of their blobs the walk that begins with the hash of the first one yields the tree, after as
many fetches as there are blobs. -/
theorem siblings_lossless (henc : t.Encodable) (hsib : t.nextSibling = none)
    (hinj : Set.InjOn P.hash {data | ∃ b ∈ splitSerializeTree P t, b.data = data}) :
    ∃ trees, SplitInto P t trees ∧ ∃ t' : Tree, t'.kind = t.kind ∧ t'.name = t.name ∧
      t'.metadata = t.metadata ∧ t'.children = t.children ∧
      ∀ fuel, fetchFullTree (storeOf (splitSerializeTree P t)) fuel (treeHash P t)
        = if (splitSerializeTree P t).length ≤ fuel + 1 then .ok t' else .error .outOfFuel := by
  have hsplit := splitInto_splitTrees (P := P) hsib
  have hlinked := linked_splitTrees (P := P) hsib
  have hstore : ∀ b ∈ splitSerializeTree P t,
      storeOf (splitSerializeTree P t) b.hash = .ok (some b) := by
    refine storeOf_mem (fun b hb => ?_) hinj
    rw [hsplit.blobs] at hb
    obtain ⟨u, -, rfl⟩ := List.mem_map.mp hb
    rfl
  have hencs : ∀ u ∈ splitTrees P t, u.Encodable := by
    intro u hu
    obtain ⟨-, hname, hmeta⟩ := hsplit.same u hu
    refine Tree.HeadEncodable.encodable ⟨?_, ?_, ?_, ?_, by simp⟩ (hsplit.length_le u hu)
    · rw [hname]
      exact henc.name
    · rw [hmeta]
      exact henc.size
    · rw [hmeta]
      exact henc.mtime
    · rw [hmeta]
      exact henc.ctime
  have hgets : ∀ u ∈ splitTrees P t, storeOf (splitSerializeTree P t) (treeBlob P u).hash
      = .ok (some (treeBlob P u)) := by
    intro u hu
    refine hstore _ ?_
    rw [hsplit.blobs]
    exact List.mem_map_of_mem hu
  refine ⟨splitTrees P t, hsplit, ?_⟩
  cases htrees : splitTrees P t with
  | nil => exact absurd htrees hsplit.nonempty
  | cons first rest =>
    have hhash : treeHash P t = (treeBlob P first).hash := by
      simp only [treeHash, hsplit.blobs, htrees, List.map_cons]
    have hlen : (splitSerializeTree P t).length = (first :: rest).length := by
      rw [hsplit.blobs, htrees, List.length_map]
    have hmem : first ∈ splitTrees P t := htrees ▸ List.mem_cons_self
    obtain ⟨hkind, hname, hmeta⟩ := hsplit.same first hmem
    have hchildren := hsplit.children
    rw [htrees] at hlinked hencs hgets hchildren
    refine ⟨{ first with children := (first :: rest).flatMap Tree.children }, hkind, hname, hmeta,
      hchildren, fun fuel => ?_⟩
    rw [hhash, hlen]
    exact fetchFullTree_linked hlinked hencs hgets fuel

end

/-- What is left of the first piece is the second. -/
theorem chunks_two {α : Type*} {n fuel : ℕ} {xs : List α} (hlt : n < xs.length)
    (hle : xs.length ≤ 2 * n) (hfuel : 2 < fuel) : chunks n fuel xs = [xs.take n, xs.drop n] := by
  obtain ⟨fuel, rfl⟩ : ∃ k, fuel = k + 3 := ⟨fuel - 3, by omega⟩
  have hdrop : ((xs.drop n).drop n).isEmpty = true := by
    rw [List.isEmpty_iff, List.drop_drop, List.drop_eq_nil_iff]
    omega
  have htake : (xs.drop n).take n = xs.drop n := by
    refine List.take_of_length_le ?_
    rw [List.length_drop]
    omega
  have hne : xs.isEmpty = false ∧ (xs.drop n).isEmpty = false := by
    simp only [List.isEmpty_eq_false_iff, ne_eq, List.drop_eq_nil_iff]
    exact ⟨List.ne_nil_of_length_pos (by omega), by omega⟩
  simp only [chunks, hne.1, hne.2, hdrop, htake, Bool.false_eq_true, if_true, if_false]

/-- A directory with one child more than fit into a blob. -/
def crowded : Tree :=
  dirTree ['d'] .absent
    ((List.range (treeBlobMaxChildren + 1)).map fun n => .fill (Fin.ofNat 256 n))

def crowdedPart (children : List BlobHash) (nextSibling : Option BlobHash) : Tree :=
  { crowded with children := children, nextSibling := nextSibling }

/-- The hash, the first 32 bytes, shows how many children the part has. -/
theorem hash_crowdedPart (children : List BlobHash) (nextSibling : Option BlobHash) :
    ((Primitives.transparent.hash
      (treeCodec.enc (crowdedPart children nextSibling))).bytes.drop 16).take 8
        = leBytes 8 children.length := by
  obtain ⟨rest, hrest⟩ : ∃ rest, treeCodec.enc (crowdedPart children nextSibling)
      = (leBytes 4 1 ++ (leBytes 8 1 ++ [100]) ++ [0, 0, 0]) ++
        (leBytes 8 children.length ++ rest) := by
    refine ⟨(FixedBytes.codec 32).encAll children ++
      (Codec.option (FixedBytes.codec 32)).enc nextSibling, ?_⟩
    have hname : utf8 ['d'] = [100] := by decide
    simp [treeCodec, treeKindCodec, Bincode.string, treeMetadataCodec, Codec.iso,
      Codec.partialIso, Codec.prod, Codec.list, Codec.bytes, Bincode.u64, Codec.nat, crowdedPart,
      crowded, dirTree, TreeMetadata.absent, TreeKind.tag, hname, Codec.option]
  obtain ⟨tail, htail⟩ : ∃ tail, tail = rest ++ List.replicate 32 (0 : Byte) := ⟨_, rfl⟩
  have hbytes : (Primitives.transparent.hash
      (treeCodec.enc (crowdedPart children nextSibling))).bytes
        = ((leBytes 4 1 ++ (leBytes 8 1 ++ [100]) ++ [0, 0, 0]) ++
          (leBytes 8 children.length ++ tail)).take 32 := by
    rw [htail, ← List.append_assoc, ← List.append_assoc, List.append_assoc _ _ rest, ← hrest]
    rfl
  rw [hbytes, List.drop_take, List.drop_left' (by simp), List.take_take]
  exact List.take_left' (by simp)

/-- It is stored in two pieces, and the walk fetches both. -/
theorem siblings_lossless_crowded : ∃ trees, SplitInto .transparent crowded trees ∧
    trees.length = 2 ∧ ∃ t' : Tree, t'.kind = .dir ∧ t'.name = ['d'] ∧ t'.metadata = .absent ∧
      t'.children = crowded.children ∧
      fetchFullTree (storeOf (splitSerializeTree .transparent crowded)) 1
        (treeHash .transparent crowded) = .ok t' := by
  have hlen : crowded.children.length = treeBlobMaxChildren + 1 := by simp [crowded, dirTree]
  have hpieces : chunks treeBlobMaxChildren crowded.children.length crowded.children
      = [crowded.children.take treeBlobMaxChildren, crowded.children.drop treeBlobMaxChildren] :=
    chunks_two (by omega) (by rw [hlen]; decide) (by rw [hlen]; decide)
  obtain ⟨piece, hpiece⟩ : ∃ xs, xs = crowded.children.take treeBlobMaxChildren := ⟨_, rfl⟩
  obtain ⟨last, hlast⟩ : ∃ xs, xs = crowded.children.drop treeBlobMaxChildren := ⟨_, rfl⟩
  rw [← hpiece, ← hlast] at hpieces
  obtain ⟨blob, hblob⟩ : ∃ blob, blob = treeBlob .transparent (crowdedPart last none) := ⟨_, rfl⟩
  have hblobs : splitSerializeTree .transparent crowded
      = [treeBlob .transparent (crowdedPart piece (some blob.hash)), blob] := by
    rw [splitSerializeTree, if_neg (by omega), hpieces, hblob]
    rfl
  have hinj : Set.InjOn Primitives.transparent.hash
      {data | ∃ b ∈ splitSerializeTree .transparent crowded, b.data = data} := by
    have hne : Primitives.transparent.hash (treeCodec.enc (crowdedPart piece (some blob.hash)))
        ≠ Primitives.transparent.hash (treeCodec.enc (crowdedPart last none)) := by
      intro heq
      have hcounts := (hash_crowdedPart piece (some blob.hash)).symm.trans
        (heq ▸ hash_crowdedPart last none)
      rw [hpiece, hlast, List.length_take, List.length_drop, hlen] at hcounts
      revert hcounts
      decide
    rw [hblobs]
    rintro _ ⟨b, hb, rfl⟩ _ ⟨b', hb', rfl⟩ heq
    rw [List.mem_pair] at hb hb'
    rcases hb with rfl | rfl <;> rcases hb' with rfl | rfl
    · rfl
    · exact absurd (hblob ▸ heq) hne
    · exact absurd (hblob ▸ heq.symm) hne
    · rfl
  obtain ⟨trees, hsplit, t', hkind, hname, hmeta, hchildren, hfetch⟩ :=
    siblings_lossless (P := .transparent) (t := crowded)
      ⟨by decide, fun _ h => (by cases h), fun _ h => (by cases h), fun _ h => (by cases h),
        by rw [hlen]; decide⟩ rfl hinj
  refine ⟨trees, hsplit, ?_, t', hkind, hname, hmeta, hchildren, ?_⟩
  · rw [← List.length_map (treeBlob .transparent), ← hsplit.blobs, hblobs]
    rfl
  · rw [hfetch, hblobs]
    rfl

end Backuwup.Client
