/-
# Files, directories and their blobs (`client/src/backup/filesystem/dir_packer.rs`)

What `process_file` adds to the packfiles for one file, the tree of a directory, and the nodes
of the processing queue.
-/
import Backuwup.Client.Tree

namespace Backuwup.Client

/-- `FsNode`: the root, or a directory found below it.  The number stands for the pointer; the
lists of children are kept apart, under these numbers. -/
inductive FsNode
  | root
  | dir (id : ℕ) (name : FileName) (parent : FsNode)
deriving DecidableEq

namespace FsNode

def id : FsNode → ℕ
  | .root => 0
  | .dir id _ _ => id

def parent : FsNode → Option FsNode
  | .root => none
  | .dir _ _ parent => some parent

end FsNode

/-- `root_tree_hash` before the root has been packed. -/
def defaultHash : BlobHash := FixedBytes.fill 0

def chunkBlob (P : Primitives) (data : Bytes) : Blob := ⟨P.hash data, .fileChunk, data⟩

/-- The tree of a file that has been read as these chunks. -/
def fileTree (P : Primitives) (name : FileName) (metadata : TreeMetadata) (chunks : List Bytes) :
    Tree := ⟨.file, name, metadata, chunks.map P.hash, none⟩

/-- The blobs that `process_file` adds, in this order. -/
def fileBlobs (P : Primitives) (name : FileName) (metadata : TreeMetadata)
    (chunks : List Bytes) : List Blob :=
  chunks.map (chunkBlob P) ++ splitSerializeTree P (fileTree P name metadata chunks)

def dirTree (name : FileName) (metadata : TreeMetadata) (children : List BlobHash) : Tree :=
  ⟨.dir, name, metadata, children, none⟩

end Backuwup.Client
