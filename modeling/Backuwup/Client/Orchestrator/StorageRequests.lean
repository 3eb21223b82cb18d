/-
# The size of a storage request (`estimate_storage_request_size`)

A storage request asks for what the size estimate of the backup has over the storage that has been
matched so far.  The two are unsigned counters of the orchestrator that other tasks write: matches
are added as they come, and a backup clears and sets the estimate.  The match on the difference has
an arm for a difference of zero or less, and the subtraction in front of it has none.

`requests_sized_iff`: a run computes the right size throughout if and only if no step takes the
matched size past the estimate.  The step of `storageRequestStep` bytes that is asked for when they
are equal does so as soon as it is matched (`own_step_overshoots`).
-/
import Backuwup.Client.NetP2p.Signed
import Backuwup.Lib.Transition

namespace Backuwup.Client.StorageRequests

open Transition

/-! ## 1. The size -/

/-- `STORAGE_REQUEST_CAP`: 150 MB. -/
def storageRequestCap : ℕ := 150000000

/-- `STORAGE_REQUEST_STEP`: 50 MB. -/
def storageRequestStep : ℕ := 50000000

/-- `-` on a `u64`: with overflow checks it panics, without them it wraps. -/
def subU64 (overflowChecks : Bool) (a b : ℕ) : Except Failure ℕ :=
  if b ≤ a then .ok (a - b)
  else if overflowChecks then .error .panic
  else .ok (u64Bound + a - b)

/-- `estimate_storage_request_size`, with the counters it has loaded. -/
def estimateStorageRequestSize (overflowChecks : Bool) (sizeEstimate fulfilledSize : ℕ) :
    Except Failure ℕ :=
  match subU64 overflowChecks sizeEstimate fulfilledSize with
  | .error e => .error e
  | .ok difference =>
    if difference ≤ 0 then .ok storageRequestStep
    else if difference ≤ storageRequestCap then .ok difference
    else .ok storageRequestCap

/-- In either build the size is what the three arms are for. -/
def Right (sizeEstimate fulfilledSize : ℕ) : Prop :=
  ∀ overflowChecks, estimateStorageRequestSize overflowChecks sizeEstimate fulfilledSize =
    .ok (if sizeEstimate ≤ fulfilledSize then storageRequestStep
      else min (sizeEstimate - fulfilledSize) storageRequestCap)

/-- The size is right exactly up to the estimate. -/
theorem right_iff {sizeEstimate fulfilledSize : ℕ} :
    Right sizeEstimate fulfilledSize ↔ fulfilledSize ≤ sizeEstimate := by
  constructor
  · intro hright
    by_contra hover
    have hpanic := hright true
    rw [estimateStorageRequestSize, subU64, if_neg hover, if_pos rfl] at hpanic
    cases hpanic
  · intro hle overflowChecks
    rw [estimateStorageRequestSize, subU64, if_pos hle]
    by_cases heq : sizeEstimate ≤ fulfilledSize
    · simp only [Nat.sub_eq_zero_of_le heq, le_refl, if_true, heq]
    · have hpos : ¬ sizeEstimate - fulfilledSize ≤ 0 := by omega
      simp only [hpos, heq, if_false]
      split
      · rename_i hcap
        rw [min_eq_left hcap]
      · rename_i hcap
        rw [min_eq_right (by omega)]

/-- Past it the client panics, or asks for as much as it can. -/
theorem estimate_overshoot {sizeEstimate fulfilledSize : ℕ} (h : sizeEstimate < fulfilledSize)
    (hlt : fulfilledSize - sizeEstimate < u64Bound - storageRequestCap) :
    estimateStorageRequestSize true sizeEstimate fulfilledSize = .error .panic ∧
      estimateStorageRequestSize false sizeEstimate fulfilledSize = .ok storageRequestCap := by
  have hnot : ¬ fulfilledSize ≤ sizeEstimate := by omega
  constructor
  · rw [estimateStorageRequestSize, subU64, if_neg hnot, if_pos rfl]
  · have hcap : ¬ u64Bound + sizeEstimate - fulfilledSize ≤ storageRequestCap := by omega
    have hpos : ¬ u64Bound + sizeEstimate - fulfilledSize ≤ 0 := by omega
    simp only [estimateStorageRequestSize, subU64, if_neg hnot, if_neg hcap, if_neg hpos,
      Bool.false_eq_true, if_false]

/-! ## 2. The orchestrator -/

/-- The counters, the estimates that calls have loaded which have yet to load the fulfilled size,
and the number of `initialize_static` calls between their last two stores. -/
structure State where
  sizeEstimate : ℕ
  fulfilledSize : ℕ
  loaded : List ℕ
  clearing : ℕ
deriving DecidableEq

/-- `BackupOrchestrator::default()`. -/
def start : State := ⟨0, 0, [], 0⟩

inductive Action
  /-- `initialize_static` of a later backup stores its zeros -/
  | clearEstimate
  | clearFulfilled
  /-- at the end of `estimate_size` -/
  | setSizeEstimate (size : ℕ)
  /-- in `handle_storage_request_matched` -/
  | incrementStorageRequestFulfilledSize (storageAvailable : ℕ)
  /-- a call of `estimate_storage_request_size` loads the estimate -/
  | loadEstimate
  /-- the call goes on with the fulfilled size -/
  | loadFulfilled (i : ℕ)
deriving DecidableEq

/-- The counter after `fetch_add`. -/
def State.fulfilledWith (s : State) (storageAvailable : ℕ) : ℕ :=
  (s.fulfilledSize + storageAvailable) % u64Bound

def step (s : State) : Action → Option State
  | .clearEstimate => some { s with sizeEstimate := 0, clearing := s.clearing + 1 }
  | .clearFulfilled =>
    if 0 < s.clearing then some { s with fulfilledSize := 0, clearing := s.clearing - 1 } else none
  | .setSizeEstimate size => some { s with sizeEstimate := size }
  | .incrementStorageRequestFulfilledSize storageAvailable =>
    some { s with fulfilledSize := s.fulfilledWith storageAvailable }
  | .loadEstimate => some { s with loaded := s.loaded ++ [s.sizeEstimate] }
  | .loadFulfilled i =>
    if i < s.loaded.length then some { s with loaded := s.loaded.eraseIdx i } else none

/-- A call that is made now, and one that has begun, computes the right size. -/
def Sized (s : State) : Prop :=
  Right s.sizeEstimate s.fulfilledSize ∧ ∀ e ∈ s.loaded, Right e s.fulfilledSize

/-- The step takes the fulfilled size past no estimate. -/
def Covered (s : State) : Action → Prop
  | .clearEstimate => s.fulfilledSize = 0
  | .setSizeEstimate size => s.fulfilledSize ≤ size
  | .incrementStorageRequestFulfilledSize storageAvailable =>
    s.fulfilledWith storageAvailable ≤ s.sizeEstimate ∧
      ∀ e ∈ s.loaded, s.fulfilledWith storageAvailable ≤ e
  | .clearFulfilled | .loadEstimate | .loadFulfilled _ => True

instance (s : State) : (a : Action) → Decidable (Covered s a)
  | .clearEstimate => inferInstanceAs (Decidable (_ = _))
  | .setSizeEstimate _ => inferInstanceAs (Decidable (_ ≤ _))
  | .incrementStorageRequestFulfilledSize _ => inferInstanceAs (Decidable (_ ∧ _))
  | .clearFulfilled | .loadEstimate | .loadFulfilled _ => inferInstanceAs (Decidable True)

/-! ## 3. Runs -/

variable {s s' : State}

theorem sized_iff : Sized s ↔
    s.fulfilledSize ≤ s.sizeEstimate ∧ ∀ e ∈ s.loaded, s.fulfilledSize ≤ e := by
  simp only [Sized, right_iff]

/-- A step keeps the sizes right exactly if it is covered. -/
theorem sized_step_iff {a : Action} (hs : Sized s) (h : step s a = some s') :
    Sized s' ↔ Covered s a := by
  rw [sized_iff] at hs ⊢
  cases a with
  | clearEstimate =>
    obtain rfl := Option.some.inj h
    exact ⟨fun h' => Nat.le_zero.mp h'.1, fun h0 => ⟨Nat.le_zero.mpr h0, hs.2⟩⟩
  | clearFulfilled =>
    rw [step, Option.ite_none_right_eq_some] at h
    obtain ⟨-, h⟩ := h
    obtain rfl := Option.some.inj h
    exact iff_of_true ⟨Nat.zero_le _, fun e _ => Nat.zero_le e⟩ trivial
  | setSizeEstimate size =>
    obtain rfl := Option.some.inj h
    exact ⟨And.left, fun hle => ⟨hle, hs.2⟩⟩
  | incrementStorageRequestFulfilledSize storageAvailable =>
    obtain rfl := Option.some.inj h
    exact Iff.rfl
  | loadEstimate =>
    obtain rfl := Option.some.inj h
    refine iff_of_true ⟨hs.1, fun e he => ?_⟩ trivial
    rcases List.mem_append.mp he with he | he
    · exact hs.2 e he
    · exact List.mem_singleton.mp he ▸ hs.1
  | loadFulfilled i =>
    rw [step, Option.ite_none_right_eq_some] at h
    obtain ⟨-, h⟩ := h
    obtain rfl := Option.some.inj h
    exact iff_of_true ⟨hs.1, fun e he => hs.2 e (List.mem_of_mem_eraseIdx he)⟩ trivial

/-- A run computes the right sizes throughout if and only if every step of it is covered. -/
theorem requests_sized_iff {as : List Action} (h : run step start as = some s) :
    Throughout step Sized start as ↔ Meets step Covered start as :=
  throughout_iff_meets (I := fun _ => True) trivial (sized_iff.mpr ⟨le_refl 0, by simp [start]⟩)
    (fun _ _ _ _ _ => trivial) (fun _ _ _ _ hs hst => sized_step_iff hs hst) h

/-- A backup of a thousand bytes asks for them and gets them. -/
theorem requests_sized_matched :
    Throughout step Sized start [.clearEstimate, .clearFulfilled, .setSizeEstimate 1000,
      .loadEstimate, .loadFulfilled 0, .incrementStorageRequestFulfilledSize 1000,
      .loadEstimate, .loadFulfilled 0] := by
  have hrun : runWhen step (fun s a => decide (Covered s a)) start [.clearEstimate,
      .clearFulfilled, .setSizeEstimate 1000, .loadEstimate, .loadFulfilled 0,
      .incrementStorageRequestFulfilledSize 1000, .loadEstimate, .loadFulfilled 0]
        = some ⟨1000, 1000, [], 0⟩ := by
    decide
  obtain ⟨hs, hmeets⟩ := meets_of_runWhen (fun _ _ hcheck => of_decide_eq_true hcheck) hrun
  exact (requests_sized_iff hs).mpr hmeets

/-- It then asks for the minimum of 50 MB, and when that is matched too the next call fails. -/
theorem own_step_overshoots : ∃ s, run step start [.setSizeEstimate 1000,
      .incrementStorageRequestFulfilledSize 1000,
      .incrementStorageRequestFulfilledSize storageRequestStep] = some s ∧
    estimateStorageRequestSize true s.sizeEstimate s.fulfilledSize = .error .panic ∧
    estimateStorageRequestSize false s.sizeEstimate s.fulfilledSize = .ok storageRequestCap ∧
    ¬ Sized s := by
  have hfails : estimateStorageRequestSize true 1000 50001000 = .error .panic ∧
      estimateStorageRequestSize false 1000 50001000 = .ok storageRequestCap :=
    estimate_overshoot (by decide) (by decide)
  refine ⟨⟨1000, 50001000, [], 0⟩, by decide, hfails.1, hfails.2, fun hs => ?_⟩
  cases hfails.1.symm.trans (hs.1 true)

end Backuwup.Client.StorageRequests
