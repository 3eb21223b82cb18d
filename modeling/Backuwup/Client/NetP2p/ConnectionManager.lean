/-
# Outgoing connection requests (`net_p2p/p2p_connection_manager.rs`)

A client remembers for each peer the nonce and the purpose of a session it has asked for, until a
connection to the peer comes about.  A request that is added while there is one for the peer is not
remembered.
-/
import Backuwup.Lib.HashMapDelay
import Backuwup.Shared.P2pMessage

namespace Backuwup.Client

/-- `TRANSPORT_REQUEST_EXPIRY`, in nanoseconds: 60 seconds. -/
def transportRequestExpiry : ℕ := 60 * 1000000000

structure P2PConnectionRequest where
  sessionNonce : TransportSessionNonce
  purpose : RequestType
deriving DecidableEq

structure P2PConnectionManager (D : Type → Type → Type) where
  requests : D ClientId P2PConnectionRequest

namespace P2PConnectionManager

variable {D : Type → Type → Type} [HashMapDelay D]

def new : P2PConnectionManager D := ⟨HashMapDelay.new transportRequestExpiry⟩

/-- `add_request`, with the nonce that has been drawn. -/
def addRequest (m : P2PConnectionManager D) (now : ℕ) (client : ClientId) (purpose : RequestType)
    (sessionNonce : TransportSessionNonce) : P2PConnectionManager D :=
  ⟨HashMapDelay.insert m.requests now client ⟨sessionNonce, purpose⟩⟩

/-- `finalize_request`; without a request, the message was unsolicited. -/
def finalizeRequest (m : P2PConnectionManager D) (client : ClientId) :
    Option (P2PConnectionRequest × P2PConnectionManager D) :=
  match HashMapDelay.remove m.requests client with
  | (none, _) => none
  | (some request, requests) => some (request, ⟨requests⟩)

variable {m : P2PConnectionManager D} {client : ClientId}

theorem finalizeRequest_eq_none [LawfulHashMapDelay D] :
    m.finalizeRequest client = none ↔ HashMapDelay.get m.requests client = none := by
  rw [← LawfulHashMapDelay.remove_fst, finalizeRequest]
  split <;> rename_i h <;> simp [h]

/-- What is returned was pending, and is removed. -/
theorem finalizeRequest_eq_some [LawfulHashMapDelay D] {request : P2PConnectionRequest}
    {m' : P2PConnectionManager D} (h : m.finalizeRequest client = some (request, m')) :
    HashMapDelay.get m.requests client = some request ∧
      m' = ⟨(HashMapDelay.remove m.requests client).2⟩ := by
  rw [finalizeRequest] at h
  split at h
  · cases h
  · rename_i heq
    cases h
    rw [← LawfulHashMapDelay.remove_fst, heq]
    exact ⟨rfl, rfl⟩

end P2PConnectionManager

end Backuwup.Client
