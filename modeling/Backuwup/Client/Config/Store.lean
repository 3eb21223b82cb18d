/-
# The configuration table (`client/src/config/identity.rs`, `config/backup.rs`)

The table `config` has the key of a row as its primary key.  What is inserted only once, like the
root secret, is written with `insert`, which fails when the row is there; what changes is written
with `insert or replace`.

The column of the values is declared as `any`, which for SQLite means that a text which is a number
is stored as that number.  The path of the backup is stored as what `to_string_lossy` makes of it,
so it is read back if and only if it is Unicode and not a number (`getBackupPath_setBackupPath`).
-/
import Backuwup.Client.KeyManager
import Backuwup.Lib.LossyUtf8
import Backuwup.Server.ClientAuth

namespace Backuwup.Client.Config

open Server.Auth (SessionToken)

/-! ## 1. The table -/

inductive ConfigKey
  | initialized
  | rootSecret
  | authToken
  | obfuscationKey
  | backupPath
  | highestSentIndex
deriving DecidableEq

/-- A value of the column `value any`. -/
inductive Value
  | integer (n : ℕ)
  | text (s : List Char)
  | blob (b : Bytes)
  /-- an integer or real number, by the text it was given as -/
  | number (literal : List Char)
deriving DecidableEq

/-- The text is a number for SQLite: digits with a decimal point and an exponent or without, after a
sign or none, between spaces. -/
def isNumber (s : List Char) : Bool :=
  let digits := fun s : List Char => s.span Char.isDigit
  let unsigned := fun s : List Char => match s with
    | '+' :: rest | '-' :: rest => rest
    | _ => s
  let space := fun c : Char => c == ' ' || (9 ≤ c.toNat && c.toNat ≤ 13)
  let trimmed := ((s.dropWhile space).reverse.dropWhile space).reverse
  let (whole, rest) := digits (unsigned trimmed)
  let (fraction, rest) := match rest with
    | '.' :: rest => digits rest
    | _ => ([], rest)
  let exponent := match rest with
    | [] => true
    | e :: rest =>
      (e == 'e' || e == 'E') && !(unsigned rest).isEmpty && (unsigned rest).all Char.isDigit
  (!whole.isEmpty || !fraction.isEmpty) && exponent

/-- What the column holds of a text. -/
def Value.ofText (s : List Char) : Value := if isNumber s then .number s else .text s

abbrev ConfigRows := ConfigKey → Option Value

def ConfigRows.empty : ConfigRows := fun _ => none

inductive ConfigError
  /-- the primary key is taken -/
  | uniqueConstraint
  | rowNotFound
  /-- the value is not of the type that is read; `Row::get` panics -/
  | decode
  | invalidRootSecret
  | invalidAuthTokenLength
  | invalidObfuscationKey
deriving DecidableEq

namespace ConfigRows

/-- `insert into config`. -/
def insert (rows : ConfigRows) (key : ConfigKey) (value : Value) : Except ConfigError ConfigRows :=
  match rows key with
  | some _ => .error .uniqueConstraint
  | none => .ok (Function.update rows key (some value))

def insertOrReplace (rows : ConfigRows) (key : ConfigKey) (value : Value) : ConfigRows :=
  Function.update rows key (some value)

/-- `delete from config where key =`. -/
def delete (rows : ConfigRows) (key : ConfigKey) : ConfigRows := Function.update rows key none

/-- `fetch_one`, and the value as a blob of this length. -/
def getBlob (rows : ConfigRows) (key : ConfigKey) (n : ℕ) (invalid : ConfigError) :
    Except ConfigError (FixedBytes n) :=
  match rows key with
  | none => .error .rowNotFound
  | some (.blob b) => if h : b.length = n then .ok ⟨b, h⟩ else .error invalid
  | some _ => .error .decode

end ConfigRows

/-! ## 2. `Transaction` -/

variable (rows : ConfigRows)

def isInitialized : Bool := (rows .initialized).isSome

def setInitialized : Except ConfigError ConfigRows := rows.insert .initialized (.integer 1)

def saveRootSecret (secret : RootSecret) : Except ConfigError ConfigRows :=
  rows.insert .rootSecret (.blob secret.bytes)

def loadRootSecret : Except ConfigError RootSecret :=
  rows.getBlob .rootSecret 32 .invalidRootSecret

def saveAuthToken : Option SessionToken → ConfigRows
  | some token => rows.insertOrReplace .authToken (.blob token.bytes)
  | none => rows.delete .authToken

def loadAuthToken : Except ConfigError (Option SessionToken) :=
  match rows .authToken with
  | none => .ok none
  | some _ => (rows.getBlob .authToken 16 .invalidAuthTokenLength).map some

/-- `save_obfuscation_key`, with the four bytes of the key. -/
def saveObfuscationKey (key : FixedBytes 4) : Except ConfigError ConfigRows :=
  rows.insert .obfuscationKey (.blob key.bytes)

def getObfuscationKey : Except ConfigError (FixedBytes 4) :=
  rows.getBlob .obfuscationKey 4 .invalidObfuscationKey

def setBackupPath (path : List UInt8) : ConfigRows :=
  rows.insertOrReplace .backupPath (.ofText (LossyUtf8.decode path))

def getBackupPath : Except ConfigError (Option (List UInt8)) :=
  match rows .backupPath with
  | none => .ok none
  | some (.text s) => .ok (some (LossyUtf8.encode s))
  | some _ => .error .decode

def saveHighestSentIndexNumber (index : ℕ) : ConfigRows :=
  rows.insertOrReplace .highestSentIndex (.integer index)

def getHighestSentIndexNumber : Except ConfigError (Option ℕ) :=
  match rows .highestSentIndex with
  | none => .ok none
  | some (.integer n) => .ok (some n)
  | some _ => .error .decode

/-! ## 3. What is saved is loaded -/

section

variable {rows rows' : ConfigRows} {key : ConfigKey}

/-- A row is inserted where there is none. -/
theorem ConfigRows.insert_eq_ok {value : Value} :
    rows.insert key value = .ok rows' ↔
      rows key = none ∧ rows' = Function.update rows key (some value) := by
  unfold ConfigRows.insert
  cases rows key with
  | none => simp [eq_comm]
  | some v => simp

theorem ConfigRows.insert_of_none (h : rows key = none) (value : Value) :
    rows.insert key value = .ok (Function.update rows key (some value)) :=
  ConfigRows.insert_eq_ok.mpr ⟨h, rfl⟩

theorem ConfigRows.getBlob_eq_ok {n : ℕ} {invalid : ConfigError} {b : FixedBytes n} :
    rows.getBlob key n invalid = .ok b ↔ rows key = some (.blob b.bytes) := by
  unfold ConfigRows.getBlob
  constructor
  · intro h
    split at h
    · cases h
    · rename_i b' hb'
      split at h
      · obtain rfl := Except.ok.inj h
        exact hb'
      · cases h
    · cases h
  · intro h
    simp only [h]
    exact dif_pos b.length_eq

theorem loadRootSecret_eq_ok {secret : RootSecret} :
    loadRootSecret rows = .ok secret ↔ rows .rootSecret = some (.blob secret.bytes) :=
  ConfigRows.getBlob_eq_ok

theorem loadAuthToken_eq_some {token : SessionToken} :
    loadAuthToken rows = .ok (some token) ↔ rows .authToken = some (.blob token.bytes) := by
  unfold loadAuthToken
  constructor
  · intro h
    split at h
    · cases h
    · cases hblob : rows.getBlob .authToken 16 .invalidAuthTokenLength with
      | error e => simp [hblob, Except.map] at h
      | ok b =>
        simp only [hblob, Except.map, Except.ok.injEq, Option.some.injEq] at h
        exact ConfigRows.getBlob_eq_ok.mp (h ▸ hblob)
  · intro h
    have hblob : rows.getBlob .authToken 16 .invalidAuthTokenLength = .ok token :=
      ConfigRows.getBlob_eq_ok.mpr h
    simp only [h, hblob]
    rfl

/-- A token that is saved is loaded, and one that is wiped is not there. -/
theorem loadAuthToken_saveAuthToken (rows : ConfigRows) (token : Option SessionToken) :
    loadAuthToken (saveAuthToken rows token) = .ok token := by
  cases token with
  | none => rfl
  | some token =>
    rw [loadAuthToken_eq_some]
    rfl

/-- The path is read back if and only if it is Unicode and not a number. -/
theorem getBackupPath_setBackupPath (path : List UInt8) :
    getBackupPath (setBackupPath rows path) = .ok (some path) ↔
      ∃ s, path = LossyUtf8.encode s ∧ isNumber s = false := by
  simp only [getBackupPath, setBackupPath, ConfigRows.insertOrReplace, Function.update_self,
    Value.ofText]
  constructor
  · intro h
    split at h
    · cases h
    · rename_i s hs
      split at hs
      · cases hs
      · rename_i hnumber
        obtain rfl := Value.text.inj (Option.some.inj hs)
        exact ⟨_, (Option.some.inj (Except.ok.inj h)).symm, by simpa using hnumber⟩
    · cases h
  · rintro ⟨s, rfl, hnumber⟩
    simp [LossyUtf8.decode_encode, hnumber]

/-- A directory can have a number as its name, and then the path cannot be read. -/
example :
    getBackupPath (setBackupPath .empty (LossyUtf8.encode "123".toList)) = .error .decode := by
  decide +kernel

end

end Backuwup.Client.Config
