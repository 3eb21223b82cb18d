/-
# Lossy decoding of UTF-8

A byte string is cut into pieces: the characters that it encodes, and what stands between them and
encodes none.  Of an encoding that is cut short or goes wrong the piece is the longest part that
could still have become a character, and any other byte is a piece by itself.  The lossy decoding
writes the replacement character for each of the latter.

Nothing is lost when the pieces are put together again (`flatMap_bytes_pieces`), and an encoding is
decoded to what has been encoded (`decode_encode`).  Two byte strings have the same decoding if and
only if they differ in nothing but unreadable pieces (`decode_eq_iff`).
-/
import Mathlib.Data.List.Basic

namespace LossyUtf8

/-! ## 1. Pieces -/

/-- U+FFFD, the replacement character. -/
def replacement : Char := '\uFFFD'

/-- A replacement character may stand for anything. -/
def visible (c : Char) : Option Char := if c = replacement then none else some c

/-- The bytes of a string. -/
def encode (s : List Char) : List UInt8 := s.flatMap String.utf8EncodeChar

/-- A character, or bytes that encode none. -/
inductive Piece
  | char (c : Char)
  | invalid (bytes : List UInt8)
deriving DecidableEq

namespace Piece

def bytes : Piece → List UInt8
  | .char c => String.utf8EncodeChar c
  | .invalid bs => bs

/-- The character to read, if there is one. -/
def readable : Piece → Option Char
  | .char c => visible c
  | .invalid _ => none

end Piece

/-- The character at the front. -/
def decodeChar? (bs : List UInt8) : Option Char := bs.toByteArray.utf8DecodeChar? 0

/-- A byte that may follow the first of an encoding. -/
def isTail (b : UInt8) : Bool := 0x80 ≤ b && b ≤ 0xBF

/-- The second byte of an encoding of three bytes, given the first. -/
def isSecondOfThree (b₀ b₁ : UInt8) : Bool :=
  (b₀ = 0xE0 && 0xA0 ≤ b₁ && b₁ ≤ 0xBF) || (0xE1 ≤ b₀ && b₀ ≤ 0xEC && isTail b₁) ||
    (b₀ = 0xED && 0x80 ≤ b₁ && b₁ ≤ 0x9F) || (0xEE ≤ b₀ && b₀ ≤ 0xEF && isTail b₁)

/-- The second byte of an encoding of four bytes, given the first. -/
def isSecondOfFour (b₀ b₁ : UInt8) : Bool :=
  (b₀ = 0xF0 && 0x90 ≤ b₁ && b₁ ≤ 0xBF) || (0xF1 ≤ b₀ && b₀ ≤ 0xF3 && isTail b₁) ||
    (b₀ = 0xF4 && 0x80 ≤ b₁ && b₁ ≤ 0x8F)

/-- How many bytes at the front are one piece, when they encode no character. -/
def invalidLength : List UInt8 → ℕ
  | b₀ :: b₁ :: b₂ :: _ =>
    if isSecondOfFour b₀ b₁ then if isTail b₂ then 3 else 2
    else if isSecondOfThree b₀ b₁ then 2
    else 1
  | [b₀, b₁] => if isSecondOfFour b₀ b₁ || isSecondOfThree b₀ b₁ then 2 else 1
  | _ => 1

/-- The first so many pieces. -/
def piecesUpTo : ℕ → List UInt8 → List Piece
  | 0, _ => []
  | fuel + 1, bs =>
    if bs = [] then []
    else
      match decodeChar? bs with
      | some c => .char c :: piecesUpTo fuel (bs.drop c.utf8Size)
      | none =>
        .invalid (bs.take (invalidLength bs)) :: piecesUpTo fuel (bs.drop (invalidLength bs))

/-- There are no more pieces than bytes. -/
def pieces (bs : List UInt8) : List Piece := piecesUpTo bs.length bs

def decode (bs : List UInt8) : List Char :=
  (pieces bs).map fun p => p.readable.getD replacement

/-- The byte strings have the same characters, and unreadable pieces in the same places. -/
def Confusable (as bs : List UInt8) : Prop :=
  (pieces as).map Piece.readable = (pieces bs).map Piece.readable

instance (as bs : List UInt8) : Decidable (Confusable as bs) :=
  inferInstanceAs (Decidable (_ = _))

-- an overlong encoding, a surrogate and an encoding that is cut short, as the standard has them
example : decode [0x61, 0xC0, 0xAF, 0x62] = ['a', replacement, replacement, 'b'] := by
  decide +kernel
example : decode [0xED, 0xA0, 0x80] = [replacement, replacement, replacement] := by decide +kernel
example : decode [0xF0, 0x9F, 0x98, 0x61] = [replacement, 'a'] := by decide +kernel

/-! ## 2. The pieces are the whole -/

variable {as bs : List UInt8} {c : Char} {s : List Char} {fuel : ℕ}

theorem invalidLength_pos (bs : List UInt8) : 0 < invalidLength bs := by
  unfold invalidLength
  split
  · split_ifs <;> decide
  · split_ifs <;> decide
  · decide

/-- A character that has been decoded is encoded at the front. -/
theorem eq_of_decodeChar? (h : decodeChar? bs = some c) :
    String.utf8EncodeChar c ++ bs.drop c.utf8Size = bs := by
  obtain ⟨rest, hrest⟩ := ByteArray.exists_of_utf8DecodeChar?_eq_some h
  have hbs : bs = String.utf8EncodeChar c ++ rest.data.toList := by
    have := congrArg (fun b => b.data.toList) hrest
    simpa using this
  rw [hbs, List.drop_left' (String.length_utf8EncodeChar c)]

/-- A character that is encoded at the front is decoded. -/
theorem decodeChar?_append (c : Char) (bs : List UInt8) :
    decodeChar? (String.utf8EncodeChar c ++ bs) = some c := by
  rw [decodeChar?, List.toByteArray_append]
  exact ByteArray.utf8DecodeChar?_utf8EncodeChar_append

theorem flatMap_bytes_piecesUpTo (h : bs.length ≤ fuel) :
    (piecesUpTo fuel bs).flatMap Piece.bytes = bs := by
  induction fuel generalizing bs with
  | zero => exact (List.eq_nil_of_length_eq_zero (Nat.le_zero.mp h)).symm
  | succ fuel ih =>
    rw [piecesUpTo]
    split
    · rename_i hnil
      exact hnil.symm
    · rename_i hne
      have hlen := List.length_pos_of_ne_nil hne
      split
      · rename_i c hc
        have hpos := c.utf8Size_pos
        have hrest : (piecesUpTo fuel (bs.drop c.utf8Size)).flatMap Piece.bytes
            = bs.drop c.utf8Size := ih (by rw [List.length_drop]; omega)
        rw [List.flatMap_cons, hrest]
        exact eq_of_decodeChar? hc
      · have hpos := invalidLength_pos bs
        have hrest : (piecesUpTo fuel (bs.drop (invalidLength bs))).flatMap Piece.bytes
            = bs.drop (invalidLength bs) := ih (by rw [List.length_drop]; omega)
        rw [List.flatMap_cons, hrest]
        exact List.take_append_drop _ _

/-- Nothing is lost in the pieces. -/
theorem flatMap_bytes_pieces (bs : List UInt8) : (pieces bs).flatMap Piece.bytes = bs :=
  flatMap_bytes_piecesUpTo (Nat.le_refl _)

theorem piecesUpTo_encode (h : (encode s).length ≤ fuel) :
    piecesUpTo fuel (encode s) = s.map .char := by
  induction s generalizing fuel with
  | nil => cases fuel <;> rfl
  | cons c s ih =>
    have henc : encode (c :: s) = String.utf8EncodeChar c ++ encode s := rfl
    have hsize := String.length_utf8EncodeChar c
    have hpos := c.utf8Size_pos
    rw [henc, List.length_append] at h
    cases fuel with
    | zero => omega
    | succ fuel =>
      have hne : encode (c :: s) ≠ [] := by
        intro hnil
        have := congrArg List.length hnil
        rw [henc, List.length_append, List.length_nil] at this
        omega
      rw [piecesUpTo, if_neg hne, henc, decodeChar?_append]
      simp only [List.drop_left' hsize, List.map_cons]
      rw [ih (by omega)]

theorem pieces_encode (s : List Char) : pieces (encode s) = s.map .char :=
  piecesUpTo_encode (Nat.le_refl _)

/-! ## 3. The decoding -/

theorem getD_visible (c : Char) : (visible c).getD replacement = c := by
  unfold visible
  split
  · rename_i h
    exact h.symm
  · rfl

/-- An encoding is decoded to what has been encoded. -/
@[simp] theorem decode_encode (s : List Char) : decode (encode s) = s := by
  rw [decode, pieces_encode, List.map_map]
  exact (List.map_congr_left fun c _ => getD_visible c).trans (List.map_id s)

/-- What has been read stands in the bytes. -/
theorem subset_of_mem_decode (h : c ∈ decode bs) (hc : c ≠ replacement) :
    String.utf8EncodeChar c ⊆ bs := by
  obtain ⟨p, hp, heq⟩ := List.mem_map.mp h
  cases p with
  | invalid bytes => exact absurd heq.symm hc
  | char c' =>
    obtain rfl := (getD_visible c').symm.trans heq
    intro b hb
    rw [← flatMap_bytes_pieces bs]
    exact List.mem_flatMap.mpr ⟨_, hp, hb⟩

/-- Without a replacement character the decoding says what the bytes are. -/
theorem eq_encode_of_decode (h : decode bs = s) (hs : replacement ∉ s) : bs = encode s := by
  have hpieces : ∀ p ∈ pieces bs,
      p.bytes = String.utf8EncodeChar (p.readable.getD replacement) := by
    intro p hp
    cases p with
    | char c => rw [Piece.readable, getD_visible, Piece.bytes]
    | invalid bytes =>
      exact absurd (h ▸ List.mem_map.mpr ⟨_, hp, rfl⟩ : replacement ∈ s) hs
  calc bs
    _ = (pieces bs).flatMap Piece.bytes := (flatMap_bytes_pieces bs).symm
    _ = (pieces bs).flatMap fun p => String.utf8EncodeChar (p.readable.getD replacement) :=
      List.flatMap_congr hpieces
    _ = encode (decode bs) := by rw [encode, decode, List.flatMap_map]
    _ = encode s := by rw [h]

/-- The decoding shows what is readable in the pieces. -/
theorem map_visible_decode (bs : List UInt8) :
    (decode bs).map visible = (pieces bs).map Piece.readable := by
  rw [decode, List.map_map]
  refine List.map_congr_left fun p _ => ?_
  cases p with
  | char c => simp only [Function.comp, Piece.readable, getD_visible]
  | invalid bytes => rfl

/-- Two byte strings have the same decoding if and only if they cannot be told apart by what is
readable in them. -/
theorem decode_eq_iff : decode as = decode bs ↔ Confusable as bs := by
  constructor
  · intro h
    rw [Confusable, ← map_visible_decode, ← map_visible_decode, h]
  · intro h
    have hmap : ∀ bs, decode bs = ((pieces bs).map Piece.readable).map (·.getD replacement) :=
      fun bs => by rw [decode, List.map_map]; rfl
    rw [hmap, hmap, h]

/-- Encodings can always be told apart. -/
theorem confusable_encode_iff {t : List Char} : Confusable (encode s) (encode t) ↔ s = t := by
  rw [← decode_eq_iff, decode_encode, decode_encode]

end LossyUtf8
