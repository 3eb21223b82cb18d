/-
# Receivers of a broadcast channel

A value sent on the channel goes to every receiver that has subscribed before, and to no other; one
that is sent while nobody has subscribed is gone.  The channel keeps the last `capacity` values for
a receiver that is slow.  A receiver that is further behind learns of it when it next receives
(`Recv.lagged`), and goes on with the oldest value that is left.

Only the view of one receiver is here.  What a development needs of it is that a value that has
been sent stays to be received until it is, as long as the receiver has not fallen behind
(`recv_cases`).
-/
import Mathlib.Data.List.Basic
import Mathlib.Order.Basic

/-- A receiver: the values sent since it has subscribed, less those it has received. -/
structure Receiver (α : Type*) where
  unread : List α
deriving DecidableEq

/-- What a call of `recv` comes to. -/
inductive Recv (α : Type*)
  | value (a : α)
  | lagged
  /-- there is nothing to receive, and the call waits -/
  | empty
deriving DecidableEq

namespace Receiver

variable {α : Type*}

/-! ## 1. The operations -/

def subscribe : Receiver α := ⟨[]⟩

/-- A value is sent on the channel. -/
def send (r : Receiver α) (a : α) : Receiver α := ⟨r.unread ++ [a]⟩

def recv (capacity : ℕ) (r : Receiver α) : Recv α × Receiver α :=
  match r.unread with
  | [] => (.empty, r)
  | a :: rest =>
    if capacity < r.unread.length then (.lagged, ⟨r.unread.drop (r.unread.length - capacity)⟩)
    else (.value a, ⟨rest⟩)

/-- The receiver has not fallen behind. -/
def Keeps (capacity : ℕ) (r : Receiver α) : Prop := r.unread.length ≤ capacity

instance (capacity : ℕ) (r : Receiver α) : Decidable (r.Keeps capacity) :=
  inferInstanceAs (Decidable (_ ≤ _))

/-! ## 2. What they leave -/

variable {capacity : ℕ} {r r' : Receiver α} {a : α}

theorem keeps_subscribe : (subscribe : Receiver α).Keeps capacity := Nat.zero_le _

theorem mem_send_self : a ∈ (r.send a).unread := by simp [send]

theorem mem_send {b : α} (h : b ∈ r.unread) : b ∈ (r.send a).unread := List.mem_append_left _ h

theorem keeps_send (h : r.unread.length < capacity) : (r.send a).Keeps capacity := by
  rw [Keeps, send, List.length_append]
  exact h

/-- While the receiver keeps up, it receives the values in order. -/
theorem recv_cons (h : r.Keeps capacity) {rest : List α} (hr : r.unread = a :: rest) :
    r.recv capacity = (.value a, ⟨rest⟩) := by
  have hle : ¬ capacity < (a :: rest).length := by
    rw [← hr]
    exact Nat.not_lt.mpr h
  simp only [recv, hr, if_neg hle]

theorem recv_nil (hr : r.unread = []) : r.recv capacity = (.empty, r) := by
  simp only [recv, hr]

/-- What a receiver that keeps up finds: nothing, or the next value. -/
theorem recv_cases (h : r.Keeps capacity) :
    (r.unread = [] ∧ r.recv capacity = (.empty, r)) ∨
      ∃ b rest, r.unread = b :: rest ∧ r.recv capacity = (.value b, ⟨rest⟩) ∧
        Keeps capacity (⟨rest⟩ : Receiver α) := by
  cases hr : r.unread with
  | nil => exact Or.inl ⟨rfl, recv_nil hr⟩
  | cons b rest =>
    refine Or.inr ⟨b, rest, rfl, recv_cons h hr, ?_⟩
    have hlen : (b :: rest).length ≤ capacity := hr ▸ h
    exact Nat.le_of_succ_le hlen

end Receiver
