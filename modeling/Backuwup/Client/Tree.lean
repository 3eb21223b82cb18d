/-
# Trees (`client/src/backup/filesystem/mod.rs`, `dir_packer.rs`, `dir_unpacker.rs`)

A file or a directory is stored as a `Tree`, whose children are the hashes of the chunks of the
file or of the trees in the directory.  A tree with more than `treeBlobMaxChildren` children is
split into siblings, each naming the hash of the next (`splitSerializeTree`), and put together
again when it is fetched (`fetchFullTree`).

`fetchFullTree_split`: fetching undoes splitting, whatever the number of children.
-/
import Backuwup.Client.Packfile.Format

namespace Backuwup.Client

/-! ## 1. The encoding -/

inductive TreeKind
  | file
  | dir
deriving DecidableEq

structure TreeMetadata where
  size : Option ℕ
  mtime : Option ℕ
  ctime : Option ℕ
deriving DecidableEq

/-- What a file system without times and sizes would yield. -/
def TreeMetadata.absent : TreeMetadata := ⟨none, none, none⟩

structure Tree where
  kind : TreeKind
  name : FileName
  metadata : TreeMetadata
  children : List BlobHash
  nextSibling : Option BlobHash
deriving DecidableEq

def TreeKind.tag : TreeKind → ℕ
  | .file => 0
  | .dir => 1

def TreeKind.ofTag : ℕ → Option TreeKind
  | 0 => some .file
  | 1 => some .dir
  | _ => none

/-- The UTF-8 bytes of a string. -/
def utf8 (s : FileName) : Bytes := (s.flatMap String.utf8EncodeChar).map UInt8.toFin

def ofUtf8 (bs : Bytes) : Option FileName :=
  (ByteArray.mk (bs.map UInt8.ofFin).toArray).utf8Decode?.map Array.toList

theorem ofUtf8_utf8 (s : FileName) : ofUtf8 (utf8 s) = some s := by
  have hbytes : (utf8 s).map UInt8.ofFin = s.flatMap String.utf8EncodeChar := by
    simp [utf8, Function.comp_def]
  have harray : ByteArray.mk (s.flatMap String.utf8EncodeChar).toArray = s.utf8Encode := by
    rw [List.utf8Encode, ByteArray.ext_iff, List.data_toByteArray]
  rw [ofUtf8, hbytes, harray, List.utf8Decode?_utf8Encode, Option.map_some]

namespace Bincode

/-- An integer of eight bytes. -/
def u64 : Codec ℕ := Codec.nat 8

/-- A `String`: its length and its bytes. -/
def string : Codec FileName := (Codec.bytes u64).partialIso utf8 ofUtf8 ofUtf8_utf8

end Bincode

def treeKindCodec : Codec TreeKind :=
  (Codec.nat 4).partialIso TreeKind.tag TreeKind.ofTag (by rintro (_ | _) <;> rfl)

def treeMetadataCodec : Codec TreeMetadata :=
  ((Codec.option Bincode.u64).prod ((Codec.option Bincode.u64).prod (Codec.option Bincode.u64))).iso
    (fun m => (m.size, m.mtime, m.ctime)) (fun p => ⟨p.1, p.2.1, p.2.2⟩) fun _ => rfl

/-- `bincode::serialize` and `bincode::deserialize` of a `Tree`. -/
def treeCodec : Codec Tree :=
  (treeKindCodec.prod (Bincode.string.prod (treeMetadataCodec.prod
    ((Codec.list Bincode.u64 (FixedBytes.codec 32)).prod
      (Codec.option (FixedBytes.codec 32)))))).iso
    (fun t => (t.kind, t.name, t.metadata, t.children, t.nextSibling))
    (fun p => ⟨p.1, p.2.1, p.2.2.1, p.2.2.2.1, p.2.2.2.2⟩) fun _ => rfl

/-- The lengths and the metadata fit into 64 bits. -/
structure Tree.Encodable (t : Tree) : Prop where
  name : (utf8 t.name).length < 18446744073709551616
  size : ∀ n ∈ t.metadata.size, n < 18446744073709551616
  mtime : ∀ n ∈ t.metadata.mtime, n < 18446744073709551616
  ctime : ∀ n ∈ t.metadata.ctime, n < 18446744073709551616
  children : t.children.length < 18446744073709551616

instance (t : Tree) : Decidable t.Encodable :=
  decidable_of_iff ((utf8 t.name).length < 18446744073709551616 ∧
      (∀ n ∈ t.metadata.size, n < 18446744073709551616) ∧
      (∀ n ∈ t.metadata.mtime, n < 18446744073709551616) ∧
      (∀ n ∈ t.metadata.ctime, n < 18446744073709551616) ∧
      t.children.length < 18446744073709551616)
    ⟨fun ⟨h1, h2, h3, h4, h5⟩ => ⟨h1, h2, h3, h4, h5⟩,
      fun ⟨h1, h2, h3, h4, h5⟩ => ⟨h1, h2, h3, h4, h5⟩⟩

theorem treeCodec_ok {t : Tree} (h : t.Encodable) : treeCodec.ok t := by
  obtain ⟨kind, name, metadata, children, nextSibling⟩ := t
  have hk : kind.tag < 256 ^ 4 := by cases kind <;> decide
  exact ⟨hk, h.name, ⟨h.size, h.mtime, h.ctime⟩, ⟨h.children, fun _ _ => trivial⟩,
    fun _ _ => trivial⟩

/-! ## 2. Splitting -/

def treeBlobMaxChildren : ℕ := 10000

def treeBlob (P : Primitives) (t : Tree) : Blob :=
  ⟨P.hash (treeCodec.enc t), .tree, treeCodec.enc t⟩

/-- `chunks`: pieces of `n` elements, the last may be shorter. -/
def chunks {α : Type*} (n : ℕ) : ℕ → List α → List (List α)
  | 0, _ => []
  | fuel + 1, xs => if xs.isEmpty then [] else xs.take n :: chunks n fuel (xs.drop n)

/-- The pieces of a tree from the last to the first, each naming the one serialized before. -/
def serializeSiblings (P : Primitives) (t : Tree) : List (List BlobHash) → List Blob
  | [] => []
  | piece :: pieces =>
    let blobs := serializeSiblings P t pieces
    treeBlob P { t with children := piece, nextSibling := blobs.head?.map Blob.hash } :: blobs

def splitSerializeTree (P : Primitives) (t : Tree) : List Blob :=
  if t.children.length ≤ treeBlobMaxChildren then [treeBlob P t]
  else serializeSiblings P t (chunks treeBlobMaxChildren t.children.length t.children)

/-- The hash that `add_tree_to_blobs` returns. -/
def treeHash (P : Primitives) (t : Tree) : BlobHash :=
  match splitSerializeTree P t with
  | [] => P.hash []
  | blob :: _ => blob.hash

theorem flatten_chunks {α : Type*} {n : ℕ} (hn : 0 < n) {fuel : ℕ} {xs : List α}
    (h : xs.length ≤ fuel) : (chunks n fuel xs).flatten = xs := by
  induction fuel generalizing xs with
  | zero =>
    rw [List.length_eq_zero_iff.mp (Nat.le_zero.mp h)]
    rfl
  | succ fuel ih =>
    cases xs with
    | nil => rfl
    | cons x xs =>
      have hlen : ((x :: xs).drop n).length ≤ fuel := by
        simp only [List.length_drop, List.length_cons] at h ⊢
        omega
      simp only [chunks, List.isEmpty_cons, Bool.false_eq_true, if_false, List.flatten_cons,
        ih hlen, List.take_append_drop]

theorem length_le_of_mem_chunks {α : Type*} {n fuel : ℕ} {xs piece : List α}
    (h : piece ∈ chunks n fuel xs) : piece.length ≤ n := by
  induction fuel generalizing xs with
  | zero => cases h
  | succ fuel ih =>
    rw [chunks] at h
    split at h
    · cases h
    · rcases List.mem_cons.mp h with rfl | h
      · exact List.length_take_le _ _
      · exact ih h

theorem length_chunks_le {α : Type*} {n fuel : ℕ} {xs : List α} :
    (chunks n fuel xs).length ≤ fuel := by
  induction fuel generalizing xs with
  | zero => exact Nat.le_refl _
  | succ fuel ih =>
    rw [chunks]
    split
    · exact Nat.zero_le _
    · exact Nat.succ_le_succ ih

theorem chunks_ne_nil {α : Type*} {n : ℕ} {xs : List α} (h : xs ≠ []) :
    chunks n xs.length xs ≠ [] := by
  cases xs with
  | nil => exact absurd rfl h
  | cons x xs => simp [chunks]

/-- The name and the metadata of the tree can be encoded, so every piece of it can. -/
def Tree.HeadEncodable (t : Tree) : Prop := Tree.Encodable { t with children := [] }

theorem Tree.Encodable.head {t : Tree} (h : t.Encodable) : t.HeadEncodable :=
  ⟨h.name, h.size, h.mtime, h.ctime, by simp⟩

theorem Tree.HeadEncodable.encodable {t : Tree} (h : t.HeadEncodable)
    (hlen : t.children.length ≤ treeBlobMaxChildren) : t.Encodable :=
  ⟨h.name, h.size, h.mtime, h.ctime, by
    simp only [treeBlobMaxChildren] at hlen ⊢
    omega⟩

theorem Tree.HeadEncodable.sibling {P : Primitives} {t : Tree} (h : t.HeadEncodable)
    {piece : List BlobHash} (hpiece : piece.length ≤ treeBlobMaxChildren)
    (pieces : List (List BlobHash)) :
    Tree.Encodable { t with
      children := piece, nextSibling := (serializeSiblings P t pieces).head?.map Blob.hash } :=
  Tree.HeadEncodable.encodable ⟨h.name, h.size, h.mtime, h.ctime, h.children⟩ hpiece

/-- The blob holds a part of the tree. -/
structure PieceOf (P : Primitives) (t piece : Tree) (blobs : List Blob) : Prop where
  kind : piece.kind = t.kind
  name : piece.name = t.name
  encodable : t.Encodable → piece.Encodable
  length_le : piece.children.length ≤ treeBlobMaxChildren
  children : piece.children ⊆ t.children
  sibling : ∀ hash, piece.nextSibling = some hash → ∃ b ∈ blobs, b.hash = hash

theorem mem_serializeSiblings {P : Primitives} {t : Tree} {pieces : List (List BlobHash)}
    (hpieces : ∀ piece ∈ pieces, piece.length ≤ treeBlobMaxChildren ∧ piece ⊆ t.children) :
    ∀ b ∈ serializeSiblings P t pieces, ∃ t', b = treeBlob P t' ∧
      PieceOf P t t' (serializeSiblings P t pieces) := by
  induction pieces with
  | nil =>
    intro b hb
    cases hb
  | cons piece pieces ih =>
    intro b hb
    obtain ⟨hlen, hsub⟩ := hpieces piece List.mem_cons_self
    rcases List.mem_cons.mp hb with rfl | hb
    · refine ⟨_, rfl, rfl, rfl, fun h => h.head.sibling hlen pieces, hlen, hsub, ?_⟩
      intro hash hnext
      obtain ⟨b, hb, rfl⟩ := Option.map_eq_some_iff.mp hnext
      exact ⟨b, List.mem_cons_of_mem _ (List.mem_of_head? hb), rfl⟩
    · obtain ⟨t', rfl, hp⟩ := ih (fun p hp => hpieces p (List.mem_cons_of_mem _ hp)) b hb
      refine ⟨t', rfl, hp.kind, hp.name, hp.encodable, hp.length_le, hp.children, ?_⟩
      intro hash hnext
      obtain ⟨b', hb', heq⟩ := hp.sibling hash hnext
      exact ⟨b', List.mem_cons_of_mem _ hb', heq⟩

/-- Every blob of a tree holds a part of it, and names another blob of it as its sibling. -/
theorem mem_splitSerializeTree {P : Primitives} {t : Tree} (hsib : t.nextSibling = none) :
    ∀ b ∈ splitSerializeTree P t, ∃ t', b = treeBlob P t' ∧
      PieceOf P t t' (splitSerializeTree P t) := by
  intro b hb
  by_cases hsmall : t.children.length ≤ treeBlobMaxChildren
  · rw [splitSerializeTree, if_pos hsmall] at hb
    refine ⟨t, List.mem_singleton.mp hb, rfl, rfl, id, hsmall, List.Subset.refl _, ?_⟩
    intro hash h
    rw [hsib] at h
    cases h
  · have hsplit : splitSerializeTree P t = serializeSiblings P t
        (chunks treeBlobMaxChildren t.children.length t.children) := if_neg hsmall
    rw [hsplit] at hb ⊢
    refine mem_serializeSiblings (fun piece hp => ⟨length_le_of_mem_chunks hp, ?_⟩) b hb
    have hflat := flatten_chunks (n := treeBlobMaxChildren) (by decide) (le_refl t.children.length)
    intro x hx
    rw [← hflat]
    exact List.mem_flatten.mpr ⟨piece, hp, hx⟩

/-- The encoding of a tree takes little more than its name and its children. -/
theorem length_treeCodec_le (t : Tree) :
    (treeCodec.enc t).length ≤ (utf8 t.name).length + 32 * t.children.length + 80 := by
  have hoption : ∀ o : Option ℕ, ((Codec.option Bincode.u64).enc o).length ≤ 9 := by
    rintro (_ | n) <;> simp [Codec.option, Bincode.u64, Codec.nat]
  have hsibling : ∀ o : Option BlobHash,
      ((Codec.option (FixedBytes.codec 32)).enc o).length ≤ 33 := by
    rintro (_ | hash) <;> simp [Codec.option, FixedBytes.codec, FixedBytes.length_eq]
  have hchildren := Codec.encAll_length_le (FixedBytes.codec 32) (m := 32) t.children
    fun hash _ => hash.length_eq.le
  have h1 := hoption t.metadata.size
  have h2 := hoption t.metadata.mtime
  have h3 := hoption t.metadata.ctime
  have h4 := hsibling t.nextSibling
  simp only [treeCodec, treeKindCodec, Bincode.string, treeMetadataCodec, Codec.iso,
    Codec.partialIso, Codec.prod, Codec.list, Codec.bytes, Bincode.u64, Codec.nat,
    List.length_append, leBytes_length] at h1 h2 h3 h4 ⊢
  omega

/-- `add_tree_to_blobs` returns the hash of one of the blobs. -/
theorem treeHash_mem (P : Primitives) (t : Tree) :
    ∃ b ∈ splitSerializeTree P t, b.hash = treeHash P t := by
  have hne : splitSerializeTree P t ≠ [] := by
    by_cases hsmall : t.children.length ≤ treeBlobMaxChildren
    · simp [splitSerializeTree, hsmall]
    · have hpieces := chunks_ne_nil (n := treeBlobMaxChildren) (show t.children ≠ [] by
        intro h0
        simp [h0] at hsmall)
      rw [splitSerializeTree, if_neg hsmall]
      intro h
      cases hp : chunks treeBlobMaxChildren t.children.length t.children with
      | nil => exact hpieces hp
      | cons piece pieces => simp [hp, serializeSiblings] at h
  unfold treeHash
  split
  · rename_i h
    exact absurd h hne
  · rename_i blob rest h
    exact ⟨blob, h ▸ List.mem_cons_self, rfl⟩

/-! ## 3. Fetching -/

inductive RestoreError
  | packfile (e : PackfileError)
  /-- "Chunk … was not found" -/
  | notFound (hash : BlobHash)
  /-- "Chunk … is not a tree" -/
  | notATree (hash : BlobHash)
  | undecodable
  | ioError
  /-- the loop has not ended within the given number of rounds -/
  | outOfFuel
deriving DecidableEq

abbrev GetBlob := BlobHash → Except PackfileError (Option Blob)

def fetchTree (get : GetBlob) (hash : BlobHash) : Except RestoreError Tree :=
  match get hash with
  | .error e => .error (.packfile e)
  | .ok none => .error (.notFound hash)
  | .ok (some blob) =>
    if blob.kind ≠ .tree then .error (.notATree hash)
    else
      match treeCodec.decodePrefix blob.data with
      | none => .error .undecodable
      | some tree => .ok tree

/-- The loop of `fetch_full_tree`: the children of all further siblings. -/
def fetchSiblings (get : GetBlob) : ℕ → Option BlobHash → Except RestoreError (List BlobHash)
  | _, none => .ok []
  | 0, some _ => .error .outOfFuel
  | fuel + 1, some hash =>
    match fetchTree get hash with
    | .error e => .error e
    | .ok tree =>
      match fetchSiblings get fuel tree.nextSibling with
      | .error e => .error e
      | .ok children => .ok (tree.children ++ children)

def fetchFullTree (get : GetBlob) (fuel : ℕ) (hash : BlobHash) : Except RestoreError Tree :=
  match fetchTree get hash with
  | .error e => .error e
  | .ok tree =>
    match fetchSiblings get fuel tree.nextSibling with
    | .error e => .error e
    | .ok children => .ok { tree with children := tree.children ++ children }

/-! ## 4. Fetching undoes splitting -/

section

variable {P : Primitives} {get : GetBlob}

theorem fetchTree_treeBlob {t : Tree} (h : t.Encodable)
    (hget : get (treeBlob P t).hash = .ok (some (treeBlob P t))) :
    fetchTree get (treeBlob P t).hash = .ok t := by
  simp only [fetchTree, hget]
  simp only [treeBlob, ne_eq, not_true_eq_false, if_false,
    treeCodec.decodePrefix_enc (treeCodec_ok h)]

/-- The siblings yield the children of all pieces. -/
theorem fetchSiblings_serialize {t : Tree} (h : t.HeadEncodable)
    {pieces : List (List BlobHash)} {fuel : ℕ} (hlen : pieces.length ≤ fuel)
    (hpieces : ∀ piece ∈ pieces, piece.length ≤ treeBlobMaxChildren)
    (hget : ∀ b ∈ serializeSiblings P t pieces, get b.hash = .ok (some b)) :
    fetchSiblings get fuel ((serializeSiblings P t pieces).head?.map Blob.hash)
      = .ok pieces.flatten := by
  induction pieces generalizing fuel with
  | nil => cases fuel <;> rfl
  | cons piece pieces ih =>
    cases fuel with
    | zero => simp at hlen
    | succ fuel =>
      have henc := h.sibling (P := P) (hpieces piece List.mem_cons_self) pieces
      have hrest := ih (Nat.le_of_succ_le_succ hlen)
        (fun p hp => hpieces p (List.mem_cons_of_mem _ hp))
        fun b hb => hget b (List.mem_cons_of_mem _ hb)
      simp only [serializeSiblings, List.head?_cons, Option.map_some, fetchSiblings,
        fetchTree_treeBlob henc (hget _ List.mem_cons_self), hrest, List.flatten_cons]

/-- What `fetch_full_tree` returns for the hash of a stored tree has the same kind, name,
metadata and children. -/
theorem fetchFullTree_split {t : Tree} (h : t.HeadEncodable) (hsib : t.nextSibling = none)
    (hget : ∀ b ∈ splitSerializeTree P t, get b.hash = .ok (some b)) {fuel : ℕ}
    (hfuel : t.children.length ≤ fuel) :
    ∃ t', fetchFullTree get fuel (treeHash P t) = .ok t' ∧ t'.kind = t.kind ∧ t'.name = t.name ∧
      t'.metadata = t.metadata ∧ t'.children = t.children := by
  by_cases hsmall : t.children.length ≤ treeBlobMaxChildren
  · have hsplit : splitSerializeTree P t = [treeBlob P t] := if_pos hsmall
    rw [hsplit] at hget
    have hfetch := fetchTree_treeBlob (h.encodable hsmall) (hget _ (List.mem_singleton.mpr rfl))
    refine ⟨{ t with children := t.children ++ [] }, ?_, rfl, rfl, rfl, List.append_nil _⟩
    simp only [treeHash, hsplit, fetchFullTree, hfetch, hsib]
    cases fuel <;> rfl
  · have hsplit : splitSerializeTree P t = serializeSiblings P t
        (chunks treeBlobMaxChildren t.children.length t.children) := if_neg hsmall
    have hne : t.children ≠ [] := by
      intro h0
      simp [h0] at hsmall
    generalize hp : chunks treeBlobMaxChildren t.children.length t.children = pieces at hsplit
    have hflat : pieces.flatten = t.children := by
      rw [← hp, flatten_chunks (by decide) (le_refl _)]
    have hpieces : ∀ piece ∈ pieces, piece.length ≤ treeBlobMaxChildren := by
      rw [← hp]
      exact fun piece hpiece => length_le_of_mem_chunks hpiece
    have hcount : pieces.length ≤ fuel := by
      rw [← hp]
      exact length_chunks_le.trans hfuel
    rw [hsplit] at hget
    cases pieces with
    | nil => exact absurd hp (chunks_ne_nil hne)
    | cons piece pieces =>
      have henc := h.sibling (P := P) (hpieces piece List.mem_cons_self) pieces
      have hrest : fetchSiblings get fuel ((serializeSiblings P t pieces).head?.map Blob.hash)
          = .ok pieces.flatten := fetchSiblings_serialize h
        (Nat.le_of_succ_le hcount) (fun p hp => hpieces p (List.mem_cons_of_mem _ hp))
        fun b hb => hget b (List.mem_cons_of_mem _ hb)
      refine ⟨Tree.mk t.kind t.name t.metadata (piece ++ pieces.flatten)
        ((serializeSiblings P t pieces).head?.map Blob.hash), ?_, rfl, rfl, rfl, hflat⟩
      simp only [treeHash, hsplit, serializeSiblings, fetchFullTree,
        fetchTree_treeBlob henc (hget _ List.mem_cons_self), hrest]

/-- What the store answers for the hash of this blob has its data, and may be of another kind. -/
def SameData (get : GetBlob) (b : Blob) : Prop :=
  ∀ blob, get b.hash = .ok (some blob) → blob.hash = b.hash ∧ blob.data = b.data

/-- A tree whose blob is missing is not fetched. -/
theorem fetchTree_missing {t : Tree} (hdata : SameData get (treeBlob P t))
    (hmiss : get (treeBlob P t).hash ≠ .ok (some (treeBlob P t))) :
    ∃ e, fetchTree get (treeBlob P t).hash = .error e := by
  unfold fetchTree
  split
  · exact ⟨_, rfl⟩
  · exact ⟨_, rfl⟩
  · rename_i blob hblob
    have hkind : blob.kind ≠ .tree := by
      intro hkind
      obtain ⟨hhash, hd⟩ := hdata blob hblob
      refine hmiss (hblob.trans ?_)
      rw [show blob = ⟨blob.hash, blob.kind, blob.data⟩ from rfl, hhash, hkind, hd]
      rfl
    rw [if_pos hkind]
    exact ⟨_, rfl⟩

theorem fetchSiblings_missing {t : Tree} (h : t.HeadEncodable) {pieces : List (List BlobHash)}
    (hpieces : ∀ piece ∈ pieces, piece.length ≤ treeBlobMaxChildren)
    (hdata : ∀ b ∈ serializeSiblings P t pieces, SameData get b)
    (hmiss : ¬ ∀ b ∈ serializeSiblings P t pieces, get b.hash = .ok (some b)) (fuel : ℕ) :
    ∃ e, fetchSiblings get fuel ((serializeSiblings P t pieces).head?.map Blob.hash)
      = .error e := by
  induction pieces generalizing fuel with
  | nil => exact absurd (by simp [serializeSiblings]) hmiss
  | cons piece pieces ih =>
    have henc := h.sibling (P := P) (hpieces piece List.mem_cons_self) pieces
    cases fuel with
    | zero => exact ⟨_, rfl⟩
    | succ fuel =>
      simp only [serializeSiblings, List.forall_mem_cons, not_and] at hmiss
      simp only [serializeSiblings, List.head?_cons, Option.map_some, fetchSiblings]
      by_cases hfirst : get (treeBlob P { t with
          children := piece
          nextSibling := (serializeSiblings P t pieces).head?.map Blob.hash }).hash
            = .ok (some (treeBlob P { t with
              children := piece
              nextSibling := (serializeSiblings P t pieces).head?.map Blob.hash }))
      · obtain ⟨e, he⟩ := ih (fun p hp => hpieces p (List.mem_cons_of_mem _ hp))
          (fun b hb => hdata b (List.mem_cons_of_mem _ hb)) (hmiss hfirst) fuel
        simp only [fetchTree_treeBlob henc hfirst, he]
        exact ⟨e, rfl⟩
      · obtain ⟨e, he⟩ := fetchTree_missing (hdata _ List.mem_cons_self) hfirst
        simp only [he]
        exact ⟨e, rfl⟩

/-- A tree is not fetched when one of its blobs is missing. -/
theorem fetchFullTree_missing {t : Tree} (h : t.HeadEncodable)
    (hdata : ∀ b ∈ splitSerializeTree P t, SameData get b)
    (hmiss : ¬ ∀ b ∈ splitSerializeTree P t, get b.hash = .ok (some b)) (fuel : ℕ) :
    ∃ e, fetchFullTree get fuel (treeHash P t) = .error e := by
  by_cases hsmall : t.children.length ≤ treeBlobMaxChildren
  · have hsplit : splitSerializeTree P t = [treeBlob P t] := if_pos hsmall
    rw [hsplit] at hdata hmiss
    obtain ⟨e, he⟩ := fetchTree_missing (hdata _ (List.mem_singleton.mpr rfl)) fun hget =>
      hmiss fun b hb => by rwa [List.mem_singleton.mp hb]
    simp only [treeHash, hsplit, fetchFullTree, he]
    exact ⟨e, rfl⟩
  · have hsplit : splitSerializeTree P t = serializeSiblings P t
        (chunks treeBlobMaxChildren t.children.length t.children) := if_neg hsmall
    have hpieces : ∀ piece ∈ chunks treeBlobMaxChildren t.children.length t.children,
        piece.length ≤ treeBlobMaxChildren := fun piece hp => length_le_of_mem_chunks hp
    rw [hsplit] at hdata hmiss
    -- the whole walk is one over siblings, with one more unit of fuel
    obtain ⟨e, he⟩ := fetchSiblings_missing h hpieces hdata hmiss (fuel + 1)
    obtain ⟨b, rest, hb⟩ : ∃ b rest, serializeSiblings P t
        (chunks treeBlobMaxChildren t.children.length t.children) = b :: rest := by
      cases hs : serializeSiblings P t
          (chunks treeBlobMaxChildren t.children.length t.children) with
      | nil => exact absurd (by simp [hs]) hmiss
      | cons b rest => exact ⟨b, rest, rfl⟩
    simp only [hb, List.head?_cons, Option.map_some, fetchSiblings] at he
    simp only [treeHash, hsplit, hb, fetchFullTree]
    cases hfetch : fetchTree get b.hash with
    | error e => exact ⟨e, rfl⟩
    | ok tree =>
      simp only [hfetch] at he
      cases hrest : fetchSiblings get fuel tree.nextSibling with
      | error e => exact ⟨e, by simp only [hrest]⟩
      | ok children => simp [hrest] at he

end

end Backuwup.Client
