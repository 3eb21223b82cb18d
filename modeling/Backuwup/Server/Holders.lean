/-
# The peers that hold data are the peers that are named (`backup_request.rs`, `db.rs`)

A client sends packfiles to the peers in its own table, which it fills from the messages about
matches.  When it restores, it asks the peers that the server names from the rows of
`peer_backups`.  A match sends its messages before it inserts its rows, so the two agree when no
match is under way, provided that only the notification of a destination has ever failed: then every
peer that the client has ever been able to send to is named (`holders_named`).
-/
import Backuwup.Client.Config.Peers
import Backuwup.Server.Answers

namespace Backuwup.Server.Endpoints

open Transition
open Client (SignatureScheme Peers)

variable {D : Type → Type → Type} [HashMapDelay D]

variable {V : SignatureScheme} {s s' : State D} {client : ClientId}

/-! ## 1. Messages and rows -/

/-- Only the notification of a destination fails.  Requests may expire. -/
def RequestersReached (m : Matching) : Server.Action → Prop
  | .advance i outcome => outcome = .ok () ∨
      ∃ (call : Call) (d : Request) (n : ℕ), m.tasks[i]? = some call ∧
        call.phase = .notifyingDestination d n
  | .request _ | .expire => True

/-- Amounts are in range, and the messages and the rows are those of the calls. -/
structure Booked (m : Matching) : Prop where
  queue : ∀ r ∈ m.shared.queue, r.Valid
  calls : ∀ call ∈ m.tasks, call.Valid
  delivered : m.shared.ledger.messages = m.total Call.sent
  peerBackups : m.shared.ledger.rows = m.total Call.saved

theorem booked_emptyQueue : Booked emptyQueue where
  queue := by simp [emptyQueue]
  calls := by simp [emptyQueue]
  delivered := rfl
  peerBackups := rfl

theorem booked_step {m m' : Matching} {a : Server.Action} (h : Booked m)
    (hok : RequestersReached m a) (hst : matchingStep m a = some m') : Booked m' := by
  cases a with
  | request r =>
    cases hst
    obtain ⟨hvalid, -, -, -, hsent, hsaved⟩ := Call.start_spec r r.clientId
    refine ⟨h.queue, Pool.forall_mem_spawn h.calls hvalid, ?_, ?_⟩
    · simp only [Matching.total, Pool.spawn_tasks, Pool.spawn_shared, Pool.sum_map_spawn, hsent,
        add_zero]
      exact h.delivered
    · simp only [Matching.total, Pool.spawn_tasks, Pool.spawn_shared, Pool.sum_map_spawn, hsaved,
        add_zero]
      exact h.peerBackups
  | advance i outcome =>
    obtain ⟨call, sh, call', hi, hadvance, rfl⟩ := Pool.advance_eq_some.mp hst
    have hvalid := h.calls call (List.mem_of_getElem? hi)
    have hstep : Call.Step m.shared call sh call' := by
      refine Call.advance_step hvalid h.queue ?_ hadvance
      rcases hok with hok | ⟨call₁, d, n, hi₁, hphase⟩
      · exact Or.inl hok
      · obtain rfl := Option.some.inj (hi.symm.trans hi₁)
        exact Or.inr ⟨d, n, hphase⟩
    obtain ⟨hcall', hqueue'⟩ := hstep.valid hvalid h.queue
    refine ⟨hqueue', Pool.forall_mem_set h.calls hcall', ?_, ?_⟩
    · have hsum := Pool.sum_map_set Call.sent hi call'
      refine add_right_cancel (b := call.sent) ?_
      rw [hstep.sent, h.delivered]
      exact hsum.symm
    · have hsum := Pool.sum_map_set Call.saved hi call'
      refine add_right_cancel (b := call.saved) ?_
      rw [hstep.saved, h.peerBackups]
      exact hsum.symm
  | expire =>
    simp only [matchingStep] at hst
    split at hst
    · cases hst
    · rename_i r queue hq
      cases hst
      exact ⟨fun x hx => h.queue x (hq ▸ List.mem_cons_of_mem _ hx), h.calls, h.delivered,
        h.peerBackups⟩

/-- No match is between its messages and its rows. -/
def Quiet (m : Matching) : Prop := ∀ call ∈ m.tasks, call.current = []

/-- Without a match under way a call has sent the messages of its matches, and saved their rows. -/
theorem sent_of_quiet {call : Call} (h : call.current = []) :
    call.sent = (call.complete.map Match.messages).sum ∧
      call.saved = (call.complete.map Match.rows).sum := by
  obtain ⟨r, z, phase, co, un, di⟩ := call
  cases phase <;> simp_all [Call.current, Call.sent, Call.saved]

theorem mem_sum_map {ι α : Type*} {l : List ι} {f : ι → Multiset α} {x : α} :
    x ∈ (l.map f).sum ↔ ∃ i ∈ l, x ∈ f i := by
  induction l with
  | nil => simp
  | cons i l ih => simp [ih]

/-- The two messages of a match are about the clients of its two rows. -/
theorem message_iff_row (m : Match) (c d : ClientId) :
    (∃ n, (c, (⟨n, d⟩ : BackupMatched)) ∈ m.messages) ↔
      ∃ row ∈ m.rows, row.source = c ∧ row.destination = d := by
  simp only [Match.messages, Match.rows, Multiset.insert_eq_cons, Multiset.mem_cons,
    Multiset.mem_singleton, Prod.mk.injEq, BackupMatched.mk.injEq, exists_eq_or_imp,
    exists_eq_left]
  constructor
  · rintro ⟨n, ⟨rfl, -, rfl⟩ | ⟨rfl, -, rfl⟩⟩
    · exact Or.inr ⟨rfl, rfl⟩
    · exact Or.inl ⟨rfl, rfl⟩
  · rintro (⟨rfl, rfl⟩ | ⟨rfl, rfl⟩)
    · exact ⟨m.size, Or.inr ⟨rfl, rfl, rfl⟩⟩
    · exact ⟨m.size, Or.inl ⟨rfl, rfl, rfl⟩⟩

/-- Then a client has been told of another one exactly if there is a row of the two. -/
theorem Booked.told_iff {m : Matching} (h : Booked m) (hquiet : Quiet m) (c d : ClientId) :
    (∃ n, (c, (⟨n, d⟩ : BackupMatched)) ∈ m.shared.ledger.delivered) ↔
      ∃ row ∈ m.shared.ledger.peerBackups, row.source = c ∧ row.destination = d := by
  have hmessages : ∀ n, (c, (⟨n, d⟩ : BackupMatched)) ∈ m.shared.ledger.delivered ↔
      ∃ call ∈ m.tasks, ∃ x ∈ call.complete, (c, (⟨n, d⟩ : BackupMatched)) ∈ x.messages := by
    intro n
    have hmem : (c, (⟨n, d⟩ : BackupMatched)) ∈ m.shared.ledger.messages ↔
        (c, (⟨n, d⟩ : BackupMatched)) ∈ m.shared.ledger.delivered := Multiset.mem_coe
    rw [← hmem, h.delivered, Matching.total, mem_sum_map]
    refine exists_congr fun call => and_congr_right fun hcall => ?_
    rw [(sent_of_quiet (hquiet call hcall)).1, mem_sum_map]
  have hrows : ∀ row, row ∈ m.shared.ledger.peerBackups ↔
      ∃ call ∈ m.tasks, ∃ x ∈ call.complete, row ∈ x.rows := by
    intro row
    have hmem : row ∈ m.shared.ledger.rows ↔ row ∈ m.shared.ledger.peerBackups :=
      Multiset.mem_coe
    rw [← hmem, h.peerBackups, Matching.total, mem_sum_map]
    refine exists_congr fun call => and_congr_right fun hcall => ?_
    rw [(sent_of_quiet (hquiet call hcall)).2, mem_sum_map]
  constructor
  · rintro ⟨n, hn⟩
    obtain ⟨call, hcall, x, hx, hmem⟩ := (hmessages n).mp hn
    obtain ⟨row, hrow, hends⟩ := (message_iff_row x c d).mp ⟨n, hmem⟩
    exact ⟨row, (hrows row).mpr ⟨call, hcall, x, hx, hrow⟩, hends⟩
  · rintro ⟨row, hrow, hends⟩
    obtain ⟨call, hcall, x, hx, hmem⟩ := (hrows row).mp hrow
    obtain ⟨n, hn⟩ := (message_iff_row x c d).mpr ⟨row, hmem, hends⟩
    exact ⟨n, (hmessages n).mpr ⟨call, hcall, x, hx, hn⟩⟩

/-! ## 2. The table of a client -/

/-- The tables that a client may have after these messages, taken in in any order, with bytes
counted in between. -/
inductive TableOf (messages : List BackupMatched) : Peers → Prop
  | empty : TableOf messages .empty
  | matched (m : BackupMatched) (peers : Peers) : m ∈ messages → TableOf messages peers →
      TableOf messages (peers.addOrIncrementPeer m.destinationId m.storageAvailable)
  | transmitted (peer : ClientId) (amount : ℕ) (peers : Peers) : TableOf messages peers →
      TableOf messages (peers.peerIncrementTransmitted peer amount)
  | received (peer : ClientId) (amount : ℕ) (peers : Peers) : TableOf messages peers →
      TableOf messages (peers.peerIncrementReceived peer amount)

/-- A peer with a row has been matched. -/
theorem TableOf.matchedWith {messages : List BackupMatched} {peers : Peers}
    (h : TableOf messages peers) {d : ClientId} (hd : peers.getPeerInfo d ≠ none) :
    ∃ m ∈ messages, m.destinationId = d := by
  induction h with
  | empty => exact absurd Peers.getPeerInfo_empty hd
  | matched m peers hm htable ih =>
    by_cases hmd : m.destinationId = d
    · exact ⟨m, hm, hmd⟩
    · refine ih ?_
      intro hnone
      refine hd ?_
      unfold Peers.addOrIncrementPeer
      split
      · rw [Peers.getPeerInfo_insert, hnone, if_neg hmd]
        rfl
      · exact Peers.getPeerInfo_update_eq_none.mpr hnone
  | transmitted peer amount peers htable ih =>
    exact ih fun hnone => hd (Peers.getPeerInfo_update_eq_none.mpr hnone)
  | received peer amount peers htable ih =>
    exact ih fun hnone => hd (Peers.getPeerInfo_update_eq_none.mpr hnone)

/-! ## 3. Every run -/

/-- Only the notification of the destination of a match fails. -/
def MatchesComplete (s : State D) : Action → Prop
  | .matching a => RequestersReached s.matching a
  | _ => True

/-- To the queue, a step of the server is one of `fulfill` or none. -/
theorem follows_matching {a : Action} (hok : MatchesComplete s a) (hst : step V s a = some s') :
    Follows matchingStep RequestersReached s.matching s'.matching := by
  cases moved_of_step hst with
  | fulfills a matching hne hm => exact .of_step hok hm
  | enters token body client auth hsome ha =>
    cases body with
    | makeBackupRequest n => exact .of_step (b := .request ⟨n, client⟩) trivial rfl
    | _ => exact .refl _
  | auths | refuses | handles => exact .refl _

/-- The messages about matches that a client has got. -/
def matchesTold (s : State D) (client : ClientId) : List BackupMatched :=
  (s.matching.shared.ledger.delivered.filter fun n => n.1 = client).map Prod.snd

/-- When a restore is answered while no match is under way, it names exactly the peers that the
client was told of, so all that its table knows, with storage left or without. -/
theorem holders_named {clients : List ClientId}
    (h : Reach (step V) MatchesComplete (start D clients) s) (hquiet : Quiet s.matching)
    {event : Event} {stage : Stage} {snapshots : List Snapshot}
    {notified : List (ClientId × ServerMessageWs)} {info : BackupRestoreInfo}
    (hst : handleStep s client event stage
      = some (snapshots, notified, .answered (.ok (.backupRestoreInfo info)))) :
    (∀ d, d ∈ info.peers ↔ ∃ m ∈ matchesTold s client, m.destinationId = d) ∧
    ∀ peers, TableOf (matchesTold s client) peers → ∀ d, peers.getPeerInfo d ≠ none →
      d ∈ info.peers := by
  have hbooked : Booked s.matching := h.invariant (I := fun s => Booked s.matching)
    booked_emptyQueue fun _ _ _ hs hok hst =>
      (follows_matching hok hst).keeps hs fun _ _ _ => booked_step
  have htold : ∀ d, d ∈ info.peers ↔ ∃ m ∈ matchesTold s client, m.destinationId = d := by
    intro d
    have hmatched : (∃ m ∈ matchesTold s client, m.destinationId = d) ↔
        ∃ n, (client, (⟨n, d⟩ : BackupMatched)) ∈ s.matching.shared.ledger.delivered := by
      simp only [matchesTold, List.mem_map, List.mem_filter, decide_eq_true_eq]
      constructor
      · rintro ⟨m, ⟨⟨c, m'⟩, ⟨hmem, hc⟩, rfl⟩, rfl⟩
        obtain rfl : c = client := hc
        exact ⟨m'.storageAvailable, hmem⟩
      · rintro ⟨n, hmem⟩
        exact ⟨_, ⟨_, ⟨hmem, rfl⟩, rfl⟩, rfl⟩
    rw [hmatched, hbooked.told_iff hquiet]
    generalize hanswer : Stage.answered (.ok (.backupRestoreInfo info)) = stage' at hst
    cases handled_of_handleStep hst with
    | lists hash peers hpeers =>
      cases hanswer
      rw [hpeers.mem_iff]
      simp [State.peerBackups, and_assoc]
    | _ => cases hanswer
  refine ⟨htold, ?_⟩
  intro peers htable d hd
  exact (htold d).mpr (htable.matchedWith hd)

theorem aliceAsks_run : (run (step Auth.stampScheme) (start DelayMap [alice, bob]) aliceAsks).any
    (fun s => decide (∀ call ∈ s.matching.tasks, call.current = []) &&
      (handleStep s alice (.negotiatedPeers (some [bob])) (.readingPeers (.fill 5))).any fun r =>
        decide (r.2.2 = .answered (.ok (.backupRestoreInfo ⟨.fill 5, [bob]⟩)))) = true := by
  decide +kernel

theorem holders_named_alice : ∃ s : State DelayMap, Reach (step Auth.stampScheme) MatchesComplete
      (start DelayMap [alice, bob]) s ∧
    (∀ d, d ∈ [bob] ↔ ∃ m ∈ matchesTold s alice, m.destinationId = d) ∧
    ∀ peers, TableOf (matchesTold s alice) peers → ∀ d, peers.getPeerInfo d ≠ none →
      d ∈ [bob] := by
  obtain ⟨s, hrun, hs⟩ := (Option.any_eq_true _ _).mp aliceAsks_run
  obtain ⟨hquiet, hanswer⟩ := Bool.and_eq_true_iff.mp hs
  obtain ⟨⟨snapshots, notified, stage⟩, hst, hstage⟩ := (Option.any_eq_true _ _).mp hanswer
  obtain rfl : stage = _ := of_decide_eq_true hstage
  have hreach : Reach (step Auth.stampScheme) MatchesComplete (start DelayMap [alice, bob]) s :=
    reach_of_run (by simp [aliceAsks, logIn, MatchesComplete, RequestersReached]) hrun
  have hquiet' : ∀ call ∈ s.matching.tasks, call.current = [] := of_decide_eq_true hquiet
  exact ⟨s, hreach, holders_named hreach hquiet' hst⟩

end Backuwup.Server.Endpoints
