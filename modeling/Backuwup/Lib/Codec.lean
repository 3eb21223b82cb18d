/-
# Byte codecs that carry their own round trip

A `Codec α` is an encoder into bytes, a decoder that returns the value and the bytes after
it, and the domain `ok` on which the decoder undoes the encoder.  The round trip is a field,
so a codec that does not invert itself cannot be built, and every codec assembled from the
combinators below inherits it.

Numbers are encoded in little-endian order (`leBytes`, `leNat`).
-/
import Mathlib.Data.List.Basic
import Mathlib.Tactic.Ring

abbrev Byte := Fin 256

instance Byte.neZero : NeZero 256 := ⟨by decide⟩

abbrev Bytes := List Byte

/-! ## 1. Little-endian numbers -/

/-- The low `k` bytes of `n`, least significant first. -/
def leBytes : ℕ → ℕ → Bytes
  | 0, _ => []
  | k + 1, n => Fin.ofNat 256 n :: leBytes k (n / 256)

/-- The number a little-endian byte string denotes. -/
def leNat : Bytes → ℕ
  | [] => 0
  | b :: bs => b.val + 256 * leNat bs

@[simp] theorem leBytes_length (k n : ℕ) : (leBytes k n).length = k := by
  induction k generalizing n with
  | zero => rfl
  | succ k ih => simp [leBytes, ih]

/-- Reading back the `k` low bytes of a number that fits in them. -/
theorem leNat_leBytes (k n : ℕ) (h : n < 256 ^ k) : leNat (leBytes k n) = n := by
  induction k generalizing n with
  | zero =>
    simp only [Nat.pow_zero] at h
    simp only [leBytes, leNat]
    omega
  | succ k ih =>
    have hdiv : n / 256 < 256 ^ k := by
      rw [Nat.div_lt_iff_lt_mul (by omega), ← Nat.pow_succ]
      exact h
    simp only [leBytes, leNat, ih (n / 256) hdiv, Fin.ofNat]
    omega

/-! ## 2. Codecs -/

/-- An encoder and a decoder that inverts it on `ok`, whatever bytes follow. -/
structure Codec (α : Type*) where
  enc : α → Bytes
  dec : Bytes → Option (α × Bytes)
  ok : α → Prop
  dec_enc : ∀ a r, ok a → dec (enc a ++ r) = some (a, r)

namespace Codec

variable {α β : Type*}

/-- Decode the whole input: nothing may follow the value. -/
def decodeExact (c : Codec α) (bs : Bytes) : Option α :=
  match c.dec bs with
  | some (a, []) => some a
  | _ => none

/-- Decode a prefix of the input and drop what follows. -/
def decodePrefix (c : Codec α) (bs : Bytes) : Option α := (c.dec bs).map Prod.fst

theorem dec_enc_nil (c : Codec α) {a : α} (h : c.ok a) : c.dec (c.enc a) = some (a, []) := by
  simpa using c.dec_enc a [] h

theorem decodeExact_enc (c : Codec α) {a : α} (h : c.ok a) :
    c.decodeExact (c.enc a) = some a := by
  rw [decodeExact, c.dec_enc_nil h]

theorem decodePrefix_enc (c : Codec α) {a : α} (h : c.ok a) :
    c.decodePrefix (c.enc a) = some a := by
  rw [decodePrefix, c.dec_enc_nil h]
  rfl

/-! ## 3. Fixed-width pieces -/

/-- Take `n` bytes off the front. -/
def takeBytes (n : ℕ) (bs : Bytes) : Option (Bytes × Bytes) :=
  if n ≤ bs.length then some (bs.take n, bs.drop n) else none

theorem takeBytes_append {n : ℕ} {xs : Bytes} (r : Bytes) (h : xs.length = n) :
    takeBytes n (xs ++ r) = some (xs, r) := by
  subst h
  simp [takeBytes]

/-- A `k`-byte little-endian number. -/
def nat (k : ℕ) : Codec ℕ where
  enc n := leBytes k n
  dec bs := (takeBytes k bs).map fun p => (leNat p.1, p.2)
  ok n := n < 256 ^ k
  dec_enc n r h := by
    rw [takeBytes_append r (leBytes_length k n), Option.map_some, leNat_leBytes k n h]

/-! ## 4. Combinators -/

/-- One value after the other. -/
def prod (c : Codec α) (d : Codec β) : Codec (α × β) where
  enc p := c.enc p.1 ++ d.enc p.2
  dec bs := (c.dec bs).bind fun p => (d.dec p.2).map fun q => ((p.1, q.1), q.2)
  ok p := c.ok p.1 ∧ d.ok p.2
  dec_enc p r h := by
    rw [List.append_assoc, c.dec_enc _ _ h.1]
    simp only [Option.bind_some, d.dec_enc _ _ h.2, Option.map_some]

theorem prod_dec (c : Codec α) (d : Codec β) (bs : Bytes) :
    (c.prod d).dec bs = (c.dec bs).bind fun p => (d.dec p.2).map fun q => ((p.1, q.1), q.2) := rfl

/-- Transport along a pair of maps of which the second undoes the first. -/
def iso (c : Codec α) (f : β → α) (g : α → β) (hgf : ∀ b, g (f b) = b) : Codec β where
  enc b := c.enc (f b)
  dec bs := (c.dec bs).map fun p => (g p.1, p.2)
  ok b := c.ok (f b)
  dec_enc b r h := by rw [c.dec_enc _ _ h, Option.map_some, hgf]

theorem iso_dec (c : Codec α) (f : β → α) (g : α → β) (hgf : ∀ b, g (f b) = b) (bs : Bytes) :
    (c.iso f g hgf).dec bs = (c.dec bs).map fun p => (g p.1, p.2) := rfl

/-- Transport along a map with a partial inverse, whose failure is a decoding error. -/
def partialIso (c : Codec α) (f : β → α) (g : α → Option β) (hgf : ∀ b, g (f b) = some b) :
    Codec β where
  enc b := c.enc (f b)
  dec bs := (c.dec bs).bind fun p => (g p.1).map fun b => (b, p.2)
  ok b := c.ok (f b)
  dec_enc b r h := by rw [c.dec_enc _ _ h, Option.bind_some, hgf, Option.map_some]

/-- One of two values, preceded by a number that says which. -/
def sum (tag : Codec ℕ) (c : Codec α) (d : Codec β) (h0 : tag.ok 0) (h1 : tag.ok 1) :
    Codec (α ⊕ β) where
  enc
    | .inl a => tag.enc 0 ++ c.enc a
    | .inr b => tag.enc 1 ++ d.enc b
  dec bs := (tag.dec bs).bind fun p =>
    if p.1 = 0 then (c.dec p.2).map fun q => (.inl q.1, q.2)
    else if p.1 = 1 then (d.dec p.2).map fun q => (.inr q.1, q.2)
    else none
  ok
    | .inl a => c.ok a
    | .inr b => d.ok b
  dec_enc x r h := by
    cases x with
    | inl a => simp [List.append_assoc, tag.dec_enc _ _ h0, c.dec_enc _ _ h]
    | inr b => simp [List.append_assoc, tag.dec_enc _ _ h1, d.dec_enc _ _ h]

/-- Encode a list element by element, without a length. -/
def encAll (c : Codec α) : List α → Bytes
  | [] => []
  | a :: as => c.enc a ++ encAll c as

/-- Decode exactly `n` elements. -/
def decN (c : Codec α) : ℕ → Bytes → Option (List α × Bytes)
  | 0, bs => some ([], bs)
  | n + 1, bs => (c.dec bs).bind fun p => (decN c n p.2).map fun q => (p.1 :: q.1, q.2)

theorem decN_encAll (c : Codec α) (as : List α) (r : Bytes) (h : ∀ a ∈ as, c.ok a) :
    c.decN as.length (c.encAll as ++ r) = some (as, r) := by
  induction as with
  | nil => rfl
  | cons a as ih =>
    have hrest := ih fun x hx => h x (List.mem_cons_of_mem _ hx)
    simp only [List.length_cons, encAll, List.append_assoc, decN]
    rw [c.dec_enc _ _ (h a List.mem_cons_self), Option.bind_some, hrest, Option.map_some]

/-- A list preceded by its length. -/
def list (len : Codec ℕ) (c : Codec α) : Codec (List α) where
  enc as := len.enc as.length ++ c.encAll as
  dec bs := (len.dec bs).bind fun p => c.decN p.1 p.2
  ok as := len.ok as.length ∧ ∀ a ∈ as, c.ok a
  dec_enc as r h := by
    rw [List.append_assoc, len.dec_enc _ _ h.1, Option.bind_some]
    exact c.decN_encAll as r h.2

/-- A byte string preceded by its length. -/
def bytes (len : Codec ℕ) : Codec Bytes where
  enc bs := len.enc bs.length ++ bs
  dec bs := (len.dec bs).bind fun p => takeBytes p.1 p.2
  ok bs := len.ok bs.length
  dec_enc bs r h := by
    rw [List.append_assoc, len.dec_enc _ _ h, Option.bind_some]
    exact takeBytes_append r rfl

/-- Each element of a list takes at most `m` bytes if each value does. -/
theorem encAll_length_le (c : Codec α) {m : ℕ} (as : List α)
    (h : ∀ a ∈ as, (c.enc a).length ≤ m) : (c.encAll as).length ≤ m * as.length := by
  induction as with
  | nil => exact Nat.le_refl _
  | cons a as ih =>
    have hrest := ih fun x hx => h x (List.mem_cons_of_mem _ hx)
    have ha := h a List.mem_cons_self
    simp only [encAll, List.length_append, List.length_cons, Nat.mul_succ]
    omega

/-- A list of values that each take at least one byte is no longer than its encoding. -/
theorem length_le_encAll (c : Codec α) (as : List α) (h : ∀ a ∈ as, 1 ≤ (c.enc a).length) :
    as.length ≤ (c.encAll as).length := by
  induction as with
  | nil => exact Nat.le_refl _
  | cons a as ih =>
    have hrest := ih fun x hx => h x (List.mem_cons_of_mem _ hx)
    have ha := h a List.mem_cons_self
    simp only [encAll, List.length_append, List.length_cons]
    omega

/-- A value that may be absent: a tag byte, then the value. -/
def option (c : Codec α) : Codec (Option α) where
  enc
    | none => [0]
    | some a => 1 :: c.enc a
  dec
    | b :: bs =>
      if b = 0 then some (none, bs)
      else if b = 1 then (c.dec bs).map fun p => (some p.1, p.2)
      else none
    | [] => none
  ok o := ∀ a ∈ o, c.ok a
  dec_enc o r h := by
    cases o with
    | none => simp
    | some a =>
      have ha : c.ok a := h a rfl
      simp [c.dec_enc _ _ ha]

end Codec
