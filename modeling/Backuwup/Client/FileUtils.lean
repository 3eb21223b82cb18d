/-
# File names (`client/src/backup/filesystem/file_utils.rs`)

An index file is named by its number, in decimal and padded with zeros to ten digits, and the
number is read back with Rust's `u32` parser.  A packfile is named by its id in hexadecimal and
lies in a subfolder named by the first two digits.
-/
import Backuwup.Lib.Hex
import Backuwup.Shared.Types
import Mathlib.Tactic.NormNum

namespace Backuwup.Client

/-! ## 1. Names -/

def u32Max : ℕ := 4294967295

abbrev FileName := List Char

/-- `format!("{id:0>10}")`, the last component of `get_index_path`. -/
def indexFileName (id : ℕ) : FileName :=
  let digits := Nat.toDigits 10 id
  List.replicate (10 - digits.length) '0' ++ digits

/-- `u32::from_str` takes one leading plus sign. -/
def stripPlus : FileName → FileName
  | '+' :: ds => ds
  | ds => ds

/-- `u32::from_str`: an optional plus sign, then at least one decimal digit and no overflow. -/
def parseU32 (s : FileName) : Option ℕ :=
  let digits := stripPlus s
  if digits ≠ [] ∧ digits.all Char.isDigit ∧ Nat.ofDigitChars 10 digits 0 ≤ u32Max then
    some (Nat.ofDigitChars 10 digits 0)
  else none

def parseIndexPathIntoId (name : FileName) : Option ℕ := parseU32 name

theorem stripPlus_of_isDigit {s : FileName} (h : ∀ c ∈ s, c.isDigit = true) :
    stripPlus s = s := by
  unfold stripPlus
  split
  · exact absurd (h '+' (by simp)) (by decide)
  · rfl

theorem isDigit_of_mem_indexFileName {id : ℕ} {c : Char} (h : c ∈ indexFileName id) :
    c.isDigit = true := by
  rcases List.mem_append.mp h with h | h
  · rw [List.eq_of_mem_replicate h]
    decide
  · exact Nat.isDigit_of_mem_toDigits (by omega) (by omega) h

/-- Every index number is read back from the name of its file. -/
theorem parseIndexPathIntoId_indexFileName {id : ℕ} (h : id ≤ u32Max) :
    parseIndexPathIntoId (indexFileName id) = some id := by
  have hval : Nat.ofDigitChars 10 (indexFileName id) 0 = id := by
    rw [indexFileName, Nat.ofDigitChars_append, Nat.ofDigitChars_replicate_zero]
    simp
  have hne : indexFileName id ≠ [] := by
    intro h0
    exact Nat.toDigits_ne_nil (List.append_eq_nil_iff.mp h0).2
  have hplus : stripPlus (indexFileName id) = indexFileName id :=
    stripPlus_of_isDigit fun _ => isDigit_of_mem_indexFileName
  have hall : (indexFileName id).all Char.isDigit = true :=
    List.all_eq_true.mpr fun _ => isDigit_of_mem_indexFileName
  rw [parseIndexPathIntoId, parseU32, hplus, if_pos ⟨hne, hall, by rw [hval]; exact h⟩, hval]

/-- Two index numbers never share a file name. -/
theorem indexFileName_inj {a b : ℕ} (ha : a ≤ u32Max) (hb : b ≤ u32Max)
    (h : indexFileName a = indexFileName b) : a = b := by
  have h1 := parseIndexPathIntoId_indexFileName ha
  rw [h, parseIndexPathIntoId_indexFileName hb] at h1
  exact (Option.some.inj h1).symm

/-! ## 2. Paths

A path is a list of names, the innermost first. -/

def packfileFolder : FileName := "pack".toList

def indexFolder : FileName := "index".toList

def getPackfilePath (folder : List FileName) (id : PackfileId) : List FileName :=
  let hex := Hex.encode id.bytes
  hex :: hex.take 2 :: packfileFolder :: folder

def getIndexPath (folder : List FileName) (id : ℕ) : List FileName :=
  indexFileName id :: indexFolder :: folder

def parsePackfilePathIntoId (name : FileName) : Option PackfileId :=
  (Hex.decode name).bind fun bytes =>
    if h : bytes.length = 12 then some ⟨bytes, h⟩ else none

/-- Every packfile id is read back from the name of its file. -/
theorem parsePackfilePathIntoId_encode (id : PackfileId) :
    parsePackfilePathIntoId (Hex.encode id.bytes) = some id := by
  rw [parsePackfilePathIntoId, Hex.decode_encode, Option.bind_some, dif_pos id.length_eq]

end Backuwup.Client
