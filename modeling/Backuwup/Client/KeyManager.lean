/-
# Cryptographic primitives and the key manager (`client/src/key_manager.rs`)

The hash, the compressor, the cipher and the key derivation come from third-party crates and
are parameters (`Primitives`).  What the client relies on is stated as laws of the parameters:
`Primitives.Lawful` for the inverses, and `RejectsTruncated` for the authentication of the
cipher as far as it concerns files that were only partly written.
-/
import Backuwup.Shared.Types

namespace Backuwup.Client

abbrev RootSecret := FixedBytes 32

/-- `SymmetricKey`, an AES-256 key. -/
abbrev SymmetricKey := FixedBytes 32

/-- The nonce of AES-GCM. -/
abbrev Nonce := FixedBytes 12

/-- The functions of `blake3`, `zstd`, `aes_gcm`, `rand_chacha` and `hkdf` that the client
calls. -/
structure Primitives where
  hash : Bytes → BlobHash
  compress : Bytes → Bytes
  /-- with the capacity of the output buffer -/
  decompress : Bytes → ℕ → Option Bytes
  encrypt : SymmetricKey → Nonce → Bytes → Bytes
  decrypt : SymmetricKey → Nonce → Bytes → Option Bytes
  /-- the second 32 bytes of the generator seeded with the root secret -/
  backupSecretKey : RootSecret → SymmetricKey
  hkdfExpand : SymmetricKey → Bytes → SymmetricKey

/-- The longest plaintext AES-GCM encrypts: 64 GiB. -/
def aesGcmMaxPlaintext : ℕ := 68719476736

namespace Primitives

def encryptInPlace (P : Primitives) (key : SymmetricKey) (nonce : Nonce) (plain : Bytes) :
    Option Bytes :=
  if plain.length ≤ aesGcmMaxPlaintext then some (P.encrypt key nonce plain) else none

theorem encryptInPlace_eq_some {P : Primitives} {key : SymmetricKey} {nonce : Nonce}
    {plain cipher : Bytes} (h : P.encryptInPlace key nonce plain = some cipher) :
    plain.length ≤ aesGcmMaxPlaintext ∧ cipher = P.encrypt key nonce plain := by
  obtain ⟨hlen, hc⟩ := Option.ite_none_right_eq_some.mp h
  exact ⟨hlen, (Option.some.inj hc).symm⟩

/-- Decryption and decompression undo encryption and compression, a ciphertext carries a tag
of 16 bytes, and the compressor stays within its output buffer (`ZSTD_compressBound`). -/
structure Lawful (P : Primitives) : Prop where
  decrypt_encrypt : ∀ key nonce plain, plain.length ≤ aesGcmMaxPlaintext →
    P.decrypt key nonce (P.encrypt key nonce plain) = some plain
  encrypt_length : ∀ key nonce plain, plain.length ≤ aesGcmMaxPlaintext →
    (P.encrypt key nonce plain).length = plain.length + 16
  decompress_compress : ∀ data capacity, data.length ≤ capacity →
    P.decompress (P.compress data) capacity = some data
  compress_length : ∀ data, (P.compress data).length ≤ data.length + data.length / 256 + 64

/-- A ciphertext that was cut off does not authenticate. -/
def RejectsTruncated (P : Primitives) : Prop :=
  ∀ key nonce plain n, plain.length ≤ aesGcmMaxPlaintext →
    n < (P.encrypt key nonce plain).length →
    P.decrypt key nonce ((P.encrypt key nonce plain).take n) = none

/-! ## A stand-in

The laws can be met together: `transparent` hides nothing, and its cipher writes the length in
front of the data and pads the end. -/

def transparent : Primitives where
  hash data := ⟨(data ++ List.replicate 32 0).take 32, by simp⟩
  compress data := data
  decompress data capacity := if data.length ≤ capacity then some data else none
  encrypt _ _ plain := leBytes 8 plain.length ++ plain ++ List.replicate 8 0
  decrypt _ _ cipher :=
    if cipher.length = leNat (cipher.take 8) + 16 then
      some ((cipher.drop 8).take (leNat (cipher.take 8)))
    else none
  backupSecretKey secret := secret
  hkdfExpand key _ := key

theorem transparent_lawful : transparent.Lawful where
  decrypt_encrypt key nonce plain h := by
    simp only [aesGcmMaxPlaintext] at h
    have htake : (leBytes 8 plain.length ++ plain ++ List.replicate 8 0).take 8
        = leBytes 8 plain.length := by
      rw [List.append_assoc]
      exact List.take_left' (by simp)
    have hdrop : (leBytes 8 plain.length ++ plain ++ List.replicate 8 0).drop 8
        = plain ++ List.replicate 8 0 := by
      rw [List.append_assoc]
      exact List.drop_left' (by simp)
    simp only [transparent, htake, hdrop, leNat_leBytes 8 plain.length (by omega)]
    rw [if_pos (by simp; omega), List.take_left]
  encrypt_length key nonce plain _ := by
    simp only [transparent, List.length_append, leBytes_length, List.length_replicate]
    omega
  decompress_compress data capacity h := by simp [transparent, h]
  compress_length data := by
    simp only [transparent]
    omega

theorem transparent_rejectsTruncated : transparent.RejectsTruncated := by
  intro key nonce plain n hlen hn
  rw [transparent_lawful.encrypt_length key nonce plain hlen] at hn
  simp only [aesGcmMaxPlaintext] at hlen
  simp only [transparent]
  have hn' : ((leBytes 8 plain.length ++ plain ++ List.replicate 8 0).take n).length = n := by
    simp only [List.length_take, List.length_append, leBytes_length, List.length_replicate]
    omega
  refine if_neg ?_
  rw [hn', List.take_take]
  by_cases h8 : 8 ≤ n
  · have htake : (leBytes 8 plain.length ++ plain ++ List.replicate 8 0).take (min 8 n)
        = leBytes 8 plain.length := by
      rw [Nat.min_eq_left h8, List.append_assoc]
      exact List.take_left' (by simp)
    rw [htake, leNat_leBytes 8 plain.length (by omega)]
    omega
  · omega

end Primitives

structure KeyManager where
  rootSecret : RootSecret
  backupSecretKey : SymmetricKey
deriving DecidableEq

/-- `from_secret`: all keys are determined by the root secret. -/
def KeyManager.fromSecret (P : Primitives) (secret : RootSecret) : KeyManager :=
  ⟨secret, P.backupSecretKey secret⟩

def KeyManager.deriveBackupKey (P : Primitives) (keys : KeyManager) (info : Bytes) :
    SymmetricKey :=
  P.hkdfExpand keys.backupSecretKey info

end Backuwup.Client
