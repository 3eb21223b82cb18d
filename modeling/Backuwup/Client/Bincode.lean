/-
# The two encodings of `bincode`

`bincode::options().with_varint_encoding()` writes an integer below 251 as one byte and a
larger one as a tag byte and two, four or eight bytes, and rejects trailing bytes; it is used
for the index files and the packfile headers.  `bincode::serialize` writes integers at full
width and allows trailing bytes; it is used for tree blobs.
-/
import Backuwup.Lib.Codec
import Mathlib.Tactic.NormNum

namespace Backuwup.Client.Bincode

/-- The variable-length encoding of an integer below `2 ^ 64`. -/
def varintEnc (n : ℕ) : Bytes :=
  if n < 251 then leBytes 1 n
  else if n < 65536 then 251 :: leBytes 2 n
  else if n < 4294967296 then 252 :: leBytes 4 n
  else 253 :: leBytes 8 n

def varintDec : Bytes → Option (ℕ × Bytes)
  | [] => none
  | b :: bs =>
    if b.val < 251 then some (b.val, bs)
    else if b.val = 251 then (Codec.nat 2).dec bs
    else if b.val = 252 then (Codec.nat 4).dec bs
    else if b.val = 253 then (Codec.nat 8).dec bs
    else none

theorem varintDec_varintEnc (n : ℕ) (r : Bytes) (h : n < 18446744073709551616) :
    varintDec (varintEnc n ++ r) = some (n, r) := by
  unfold varintEnc
  split
  · rename_i hn
    have hmod : n % 256 = n := Nat.mod_eq_of_lt (by omega)
    simp [leBytes, Fin.ofNat, varintDec, hmod, hn]
  · split
    · exact (Codec.nat 2).dec_enc n r (by simpa [Codec.nat] using ‹n < 65536›)
    · split
      · exact (Codec.nat 4).dec_enc n r (by simpa [Codec.nat] using ‹n < 4294967296›)
      · exact (Codec.nat 8).dec_enc n r (by simpa [Codec.nat] using h)

theorem varintEnc_length_le (n : ℕ) : (varintEnc n).length ≤ 9 := by
  unfold varintEnc
  split_ifs <;> simp

def varint : Codec ℕ where
  enc := varintEnc
  dec := varintDec
  ok n := n < 18446744073709551616
  dec_enc := varintDec_varintEnc

/-- The variant tag of a fieldless enum in the variable-length encoding. -/
def varintEnum {α : Type*} (tag : α → ℕ) (ofTag : ℕ → Option α)
    (h : ∀ a, ofTag (tag a) = some a) : Codec α :=
  varint.partialIso tag ofTag h

/-- A length and the elements, as `Vec` is written. -/
def varintVec {α : Type*} (c : Codec α) : Codec (List α) := Codec.list varint c

end Backuwup.Client.Bincode
