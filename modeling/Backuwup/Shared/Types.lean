/-
# Types and constants shared by server and client

The byte arrays of `shared/src/types.rs` are fixed-length byte strings.  Rust compares two
such arrays lexicographically, which is the order `FixedBytes` inherits from `Bytes`.
-/
import Backuwup.Lib.Codec
import Mathlib.Data.List.Lex
import Mathlib.Order.Fin.Basic

namespace Backuwup

/-- A byte array `[u8; n]`. -/
structure FixedBytes (n : ℕ) where
  bytes : Bytes
  length_eq : bytes.length = n
deriving DecidableEq

namespace FixedBytes

variable {n : ℕ}

theorem ext' {a b : FixedBytes n} (h : a.bytes = b.bytes) : a = b := by
  cases a
  cases b
  simpa using h

theorem bytes_injective : Function.Injective (bytes : FixedBytes n → Bytes) :=
  fun _ _ h => ext' h

instance : LinearOrder (FixedBytes n) := LinearOrder.lift' bytes bytes_injective

/-- The array all of whose bytes are `b`. -/
def fill (b : Byte) : FixedBytes n := ⟨List.replicate n b, List.length_replicate⟩

/-- An array is written as its bytes, without a length. -/
def codec (n : ℕ) : Codec (FixedBytes n) where
  enc a := a.bytes
  dec bs := if h : n ≤ bs.length then some (⟨bs.take n, by simpa using h⟩, bs.drop n) else none
  ok _ := True
  dec_enc a r _ := by
    obtain ⟨bs, rfl⟩ := a
    simp

end FixedBytes

/-! ## 1. `types.rs` -/

/-- The client's public key. -/
abbrev ClientId := FixedBytes 32

instance ClientId.lawfulBEq : LawfulBEq ClientId := inferInstance

/-- Length of a blob encryption nonce in bytes. -/
def blobNonceSize : ℕ := 12

abbrev BlobHash := FixedBytes 32

abbrev PackfileId := FixedBytes 12

/-- The nonce of a blob, of `blobNonceSize` bytes. -/
abbrev BlobNonce := FixedBytes 12

/-! ## 2. `constants.rs` and `server_message_ws.rs` -/

/-- Largest storage request the server accepts: 16 GiB. -/
def maxBackupStorageRequestSize : ℕ := 17179869184

/-- The message that tells a client about a storage match. -/
structure BackupMatched where
  storageAvailable : ℕ
  destinationId : ClientId
deriving DecidableEq

end Backuwup
