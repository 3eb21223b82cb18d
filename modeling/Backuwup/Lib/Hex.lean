/-
# Hexadecimal notation of byte strings

Every byte is written as two lower-case digits.  Reading takes digits of either case, and fails on
other characters and on an odd number of them; it undoes writing (`decode_encode`).
-/
import Backuwup.Lib.Codec

namespace Hex

/-! ## 1. Digits -/

/-- The digit of a number below sixteen. -/
def digit (n : ℕ) : Char := "0123456789abcdef".toList.getD n '0'

/-- The number that a digit stands for. -/
def digitVal (c : Char) : Option ℕ :=
  if '0'.toNat ≤ c.toNat ∧ c.toNat ≤ '9'.toNat then some (c.toNat - '0'.toNat)
  else if 'a'.toNat ≤ c.toNat ∧ c.toNat ≤ 'f'.toNat then some (c.toNat - 'a'.toNat + 10)
  else if 'A'.toNat ≤ c.toNat ∧ c.toNat ≤ 'F'.toNat then some (c.toNat - 'A'.toNat + 10)
  else none

theorem digitVal_digit {n : ℕ} (h : n < 16) : digitVal (digit n) = some n := by
  have hall : ∀ n < 16, digitVal (digit n) = some n := by decide
  exact hall n h

/-! ## 2. Byte strings -/

/-- The high digit stands first. -/
def encode : Bytes → List Char
  | [] => []
  | b :: bs => digit (b.val / 16) :: digit (b.val % 16) :: encode bs

def decode : List Char → Option Bytes
  | [] => some []
  | [_] => none
  | hi :: lo :: cs =>
    match digitVal hi, digitVal lo, decode cs with
    | some h, some l, some bs => some (Fin.ofNat 256 (16 * h + l) :: bs)
    | _, _, _ => none

theorem decode_encode (bs : Bytes) : decode (encode bs) = some bs := by
  induction bs with
  | nil => rfl
  | cons b bs ih =>
    have hb := b.isLt
    have hval : Fin.ofNat 256 (16 * (b.val / 16) + b.val % 16) = b := by
      apply Fin.ext
      simp only [Fin.ofNat]
      omega
    simp only [encode, decode, digitVal_digit (show b.val / 16 < 16 by omega),
      digitVal_digit (show b.val % 16 < 16 by omega), ih, hval]

theorem encode_injective : Function.Injective encode := by
  intro a b h
  have ha := decode_encode a
  rw [h, decode_encode] at ha
  exact (Option.some.inj ha).symm

@[simp] theorem length_encode (bs : Bytes) : (encode bs).length = 2 * bs.length := by
  induction bs with
  | nil => rfl
  | cons b bs ih =>
    simp only [encode, List.length_cons, ih]
    omega

end Hex
