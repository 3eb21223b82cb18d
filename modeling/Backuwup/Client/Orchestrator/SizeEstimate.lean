/-
# The size estimate of a backup (`estimate_size`)

Before a backup its folder is measured, and the estimate of what has to be sent is the difference
to the size that the last backup of the same path has logged, if it is to be had.  The query for
it asks for one column and reads two, so that it fails as soon as there is a row, and the failure is
taken for the lack of an earlier backup: every estimate is the measured size (`estimateSize_eq`),
and so is what each backup logs (`history_eq`).

`size_estimate_iff` says for which backups that is the intended estimate.
-/
import Backuwup.Client.Config.Log

namespace Backuwup.Client.SizeEstimate

open Log

/-! ## 1. The estimate -/

/-- The `i64`s are below. -/
def i64Bound : ℕ := 9223372036854775808

/-- `i64::cast(size).expect("bad size")`. -/
def castI64 (size : ℕ) : Option ℤ := if size < i64Bound then some size else none

/-- `estimate_size`, for a folder of this measured size; it ends if the cast panics. -/
def estimateSize (q : LatestFirst) (log : List LogRow) (newSize : ℕ) (path : FileName) :
    Option ℕ :=
  match castI64 newSize with
  | none => none
  | some size =>
    match getBackupSizeDifference q log size path with
    | .ok (some difference) =>
      if difference = 0 then some 0
      else if difference ≤ 0 then some newSize
      else some difference.toNat
    | _ => some newSize

/-- What is logged: backups of a path with the measured size, and restore requests. -/
inductive Entry
  | backup (path : FileName) (measured : ℕ) (time : ℤ)
  | restoreRequest (peer : ClientId) (time : ℤ)
deriving DecidableEq

/-- A backup that succeeds logs its estimate. -/
def logEntry (q : LatestFirst) (log : List LogRow) : Entry → Option (List LogRow)
  | .backup path measured time => do
    let estimate ← estimateSize q log measured path
    let size ← castI64 estimate
    return logBackup log time size path
  | .restoreRequest peer time => some (logPeerRestoreRequest log time peer)

/-- The log after this history. -/
def history (q : LatestFirst) (entries : List Entry) : Option (List LogRow) :=
  entries.foldlM (logEntry q) []

/-- No size is too large. -/
def Entry.Successful : Entry → Prop
  | .backup _ measured _ => measured < i64Bound
  | .restoreRequest _ _ => True

instance : (e : Entry) → Decidable e.Successful
  | .backup _ _ _ => inferInstanceAs (Decidable (_ < _))
  | .restoreRequest _ _ => inferInstanceAs (Decidable True)

/-! ## 2. What it is meant to be -/

/-- Path and measured size of the backup that was logged last. -/
def lastBackup (entries : List Entry) : Option (FileName × ℕ) :=
  entries.foldl
    (fun last e =>
      match e with
      | .backup path measured _ => some (path, measured)
      | .restoreRequest _ _ => last)
    none

/-- The estimate for a backup of this path and measured size. -/
def intended (entries : List Entry) (path : FileName) (size : ℕ) : ℕ :=
  match lastBackup entries with
  | some (lastPath, t) =>
    if FsPath.parse lastPath = FsPath.parse path then
      if t < size then size - t
      else if t = size then 0
      else size
    else size
  | none => size

/-- The estimate that `estimate_size` sets after this history is the intended one. -/
def Estimated (q : LatestFirst) (entries : List Entry) (path : FileName) (size : ℕ) : Prop :=
  (history q entries).bind (fun log => estimateSize q log size path)
    = some (intended entries path size)

/-! ## 3. What it is -/

variable {q : LatestFirst} {log : List LogRow} {entries : List Entry}

theorem estimateSize_eq (size : ℕ) (path : FileName) :
    estimateSize q log size path = if size < i64Bound then some size else none := by
  unfold estimateSize castI64
  by_cases hsize : size < i64Bound
  · simp only [if_pos hsize]
    split
    · rename_i difference hdiff
      exact absurd hdiff (getBackupSizeDifference_ne _ _ _)
    · rfl
  · simp only [if_neg hsize]

def Entry.row : Entry → LogRow
  | .backup path measured time => ⟨time, EventType.backup.toId, backupEvent measured path⟩
  | .restoreRequest peer time => ⟨time, EventType.restoreRequest.toId, restoreRequestEvent peer⟩

theorem logEntry_eq {e : Entry} (he : e.Successful) : logEntry q log e = some (log ++ [e.row]) := by
  cases e with
  | backup path measured time =>
    have hlt : measured < i64Bound := he
    simp only [logEntry, estimateSize_eq, castI64, if_pos hlt, Option.bind_eq_bind,
      Option.bind_some]
    rfl
  | restoreRequest peer time => rfl

/-- Every backup logs its measured size. -/
theorem history_eq (hsucc : ∀ e ∈ entries, e.Successful) :
    history q entries = some (entries.map Entry.row) := by
  have hfrom : ∀ log, entries.foldlM (logEntry q) log = some (log ++ entries.map Entry.row) := by
    induction entries with
    | nil => simp
    | cons e entries ih =>
      intro log
      have hrest := ih (fun e' he' => hsucc e' (List.mem_cons_of_mem _ he')) (log ++ [e.row])
      rw [List.foldlM_cons, logEntry_eq (hsucc e List.mem_cons_self)]
      simpa using hrest
  exact hfrom []

/-- The measured size is the intended estimate, unless it is at least that of the last backup of
the same path. -/
theorem intended_eq_iff {path : FileName} {size : ℕ} : intended entries path size = size ↔
    ∀ lastPath t, lastBackup entries = some (lastPath, t) →
      FsPath.parse lastPath = FsPath.parse path → 0 < t → size < t := by
  unfold intended
  cases lastBackup entries with
  | none => simp
  | some last =>
    obtain ⟨lastPath, t⟩ := last
    constructor
    · rintro hsame _ _ hlast hpath hpos
      obtain ⟨rfl, rfl⟩ := Prod.mk.inj (Option.some.inj hlast)
      simp only [if_pos hpath] at hsame
      by_contra hge
      split at hsame
      · omega
      · split at hsame <;> omega
    · intro hlarger
      have hlast := hlarger lastPath t rfl
      by_cases hpath : FsPath.parse lastPath = FsPath.parse path
      · have hlt := hlast hpath
        simp only [if_pos hpath]
        split
        · omega
        · split <;> omega
      · simp only [if_neg hpath]

/-- The estimate is the intended one exactly for the backups whose size the cast takes, and that
are smaller than the last one of the same path if there is one. -/
theorem size_estimate_iff (hsucc : ∀ e ∈ entries, e.Successful) (path : FileName) (size : ℕ) :
    Estimated q entries path size ↔ size < i64Bound ∧
      ∀ lastPath t, lastBackup entries = some (lastPath, t) →
        FsPath.parse lastPath = FsPath.parse path → 0 < t → size < t := by
  rw [Estimated, history_eq hsucc, Option.bind_some, estimateSize_eq, ← intended_eq_iff]
  by_cases hsize : size < i64Bound
  · rw [if_pos hsize, Option.some.injEq]
    exact ⟨fun h => ⟨hsize, h.symm⟩, fun h => h.2.symm⟩
  · simp [hsize]

/-- After a backup of `/a` and a restore request a backup of `/b`. -/
theorem size_estimate_other_path :
    Estimated firstLatest [.backup ['/', 'a'] 100 0, .restoreRequest (.fill 1) 5] ['/', 'b'] 150 :=
  (size_estimate_iff (by decide) _ _).mpr ⟨by decide, by
    rintro lastPath t h hpath
    obtain ⟨rfl, rfl⟩ := Prod.mk.inj (Option.some.inj h)
    exact absurd hpath (by decide)⟩

/-- A second backup of `/a`, with 50 bytes more, is estimated at its full size. -/
theorem second_backup_full_size :
    (history firstLatest [.backup ['/', 'a'] 100 0]).bind
        (fun log => estimateSize firstLatest log 150 ['/', 'a']) = some 150 ∧
      intended [.backup ['/', 'a'] 100 0] ['/', 'a'] 150 = 50 ∧
      ¬ Estimated firstLatest [.backup ['/', 'a'] 100 0] ['/', 'a'] 150 := by
  have hfull : (history firstLatest [.backup ['/', 'a'] 100 0]).bind
      (fun log => estimateSize firstLatest log 150 ['/', 'a']) = some 150 := by
    decide +kernel
  have hintended : intended [.backup ['/', 'a'] 100 0] ['/', 'a'] 150 = 50 := by decide
  refine ⟨hfull, hintended, ?_⟩
  rw [Estimated, hfull, hintended]
  decide

end Backuwup.Client.SizeEstimate
