/-
# Every answer is earned (`server/src/handlers/`)

What a handler answers is decided over several awaits, with any other requests in between.  In every
run a request that is answered with `Ok` has had its effect, a restore is told of a snapshot that is
no older than any that was there when the request came in, together with all peers that had
negotiated storage before that snapshot was saved, and nobody is told that there is no backup who
had one (`answers_earned`).

Tables and lists of messages only grow and the calls of `fulfill` stay where they are (`Grows`), so
what has been earned stays earned.
-/
import Backuwup.Server.Endpoints

namespace Backuwup.Server.Endpoints

open Transition
open Auth (SessionToken)
open Client (SignatureScheme)

variable {D : Type → Type → Type} [HashMapDelay D]

/-! ## 1. What an answer says -/

/-- A snapshot of the client with this hash, that none of those before the request is newer
than. -/
def Recent (s : State D) (client : ClientId) (before : List Snapshot) (row : Snapshot)
    (snapshotHash : BlobHash) : Prop :=
  row ∈ s.snapshots ∧ row.clientPubkey = client ∧ row.snapshotHash = snapshotHash.bytes ∧
    ∀ r ∈ before, r.clientPubkey = client → r.timestamp ≤ row.timestamp

/-- The snapshot is recent, and the peers are those that the client has negotiated storage with:
each of them once, and all of the time when the snapshot was saved. -/
structure RestoreInfo (s : State D) (client : ClientId) (before : List Snapshot)
    (info : BackupRestoreInfo) : Prop where
  snapshot : ∃ row, Recent s client before row info.snapshotHash ∧
    ∀ pb ∈ row.negotiated, pb.source = client → pb.destination ∈ info.peers
  negotiated : ∀ peer ∈ info.peers, ∃ pb ∈ s.peerBackups, pb.source = client ∧
    pb.destination = peer
  distinct : info.peers.Nodup

/-- What a client has got when a request succeeds. -/
def Earned (s : State D) (client : ClientId) (before : List Snapshot) : Body → ServerMessage → Prop
  | .backupDone hash, .ok =>
    ∃ row ∈ s.snapshots, row.clientPubkey = client ∧ row.snapshotHash = hash.bytes
  | .backupRestore, .backupRestoreInfo info => RestoreInfo s client before info
  | .makeBackupRequest storageRequired, .ok => ∃ call ∈ s.matching.tasks,
      call.request = ⟨storageRequired, client⟩ ∧ call.phase = .returned .ok
  | .p2pConnectionBegin destination nonce, .ok =>
    (destination, .incomingP2PConnection client nonce) ∈ s.notified
  | .p2pConnectionConfirm source address, .ok =>
    (source, .finalizeP2PConnection client address) ∈ s.notified ∧ address.utf8ByteSize ≤ 64
  | _, _ => False

/-- The reasons for which a request with a session may fail. -/
def Excused (client : ClientId) (before : List Snapshot) (body : Body) : Error → Prop
  | .unauthorized | .databaseTypeMismatch => False
  | .noBackupsAvailable => body = .backupRestore ∧ ∀ r ∈ before, r.clientPubkey ≠ client
  | _ => True

/-- What an answer says is so. -/
def Justified (s : State D) (t : Task) (answer : Except Error ServerMessage) : Prop :=
  match t.client, answer with
  | none, answer => answer = .error .unauthorized
  | some client, .ok message => Earned s client t.before t.body message
  | some client, .error e => Excused client t.before t.body e

/-! ## 2. What a step does -/

/-- What each step of a handler does. -/
inductive Handled (s : State D) (client : ClientId) : Stage →
    List Snapshot → List (ClientId × ServerMessageWs) → Stage → Prop
  | executes (hash : BlobHash) : Handled s client (.savingSnapshot hash) s.snapshots s.notified
      (.inserting hash s.auth.shared.now)
  | saves (hash : BlobHash) (timestamp : ℕ) : client ∈ s.auth.shared.clients →
      Handled s client (.inserting hash timestamp)
        (s.snapshots ++ [⟨client, hash.bytes, timestamp, s.peerBackups⟩]) s.notified
        (.answered (.ok .ok))
  | finds (row : Snapshot) (hash : BlobHash) : IsLatest s.snapshots client (some row) →
      row.snapshotHash = hash.bytes →
      Handled s client .readingSnapshot s.snapshots s.notified (.readingPeers hash)
  | findsNone : IsLatest s.snapshots client none →
      Handled s client .readingSnapshot s.snapshots s.notified
        (.answered (.error .noBackupsAvailable))
  | mismatch (row : Snapshot) : IsLatest s.snapshots client (some row) →
      row.snapshotHash.length ≠ 32 →
      Handled s client .readingSnapshot s.snapshots s.notified
        (.answered (.error .databaseTypeMismatch))
  | lists (hash : BlobHash) (peers : List ClientId) : IsNegotiated s.peerBackups client peers →
      Handled s client (.readingPeers hash) s.snapshots s.notified
        (.answered (.ok (.backupRestoreInfo ⟨hash, peers⟩)))
  | fulfilled (k : ℕ) (call : Call) : s.matching.tasks[k]? = some call →
      call.phase = .returned .ok →
      Handled s client (.fulfilling k) s.snapshots s.notified (.answered (.ok .ok))
  | checks (other : ClientId) (message : ServerMessageWs) : other ∈ s.auth.shared.clients →
      Handled s client (.checkingClient other message) s.snapshots s.notified
        (.notifying other message)
  | notifies (other : ClientId) (message : ServerMessageWs) :
      Handled s client (.notifying other message) s.snapshots
        (s.notified ++ [(other, message)]) (.answered (.ok .ok))
  | fails (stage : Stage) (e : Error) : e ≠ .unauthorized → e ≠ .databaseTypeMismatch →
      e ≠ .noBackupsAvailable →
      Handled s client stage s.snapshots s.notified (.answered (.error e))

theorem Error.ofServer_ne (e : Server.Error) : ofServer e ≠ .unauthorized ∧
    ofServer e ≠ .databaseTypeMismatch ∧ ofServer e ≠ .noBackupsAvailable := by
  cases e <;> simp [ofServer]

section

variable {V : SignatureScheme} {s s' : State D} {client : ClientId} {event : Event}
  {stage stage' : Stage} {snapshots : List Snapshot}
  {notified : List (ClientId × ServerMessageWs)}

omit [HashMapDelay D] in
theorem handled_of_handleStep
    (h : handleStep s client event stage = some (snapshots, notified, stage')) :
    Handled s client stage snapshots notified stage' := by
  unfold handleStep at h
  split at h
  · cases h
    exact .executes _
  · split at h
    · rename_i hok
      cases h
      exact .saves _ _ hok.2
    · cases h
      exact .fails _ _ (by simp) (by simp) (by simp)
  · cases h
    exact .fails _ _ (by simp) (by simp) (by simp)
  · rename_i row
    split at h
    · rename_i hlatest
      cases row with
      | none =>
        cases h
        exact .findsNone hlatest
      | some row =>
        by_cases hlen : row.snapshotHash.length = 32
        · simp only [getLatestClientSnapshot, dif_pos hlen] at h
          cases h
          exact .finds row ⟨row.snapshotHash, hlen⟩ hlatest rfl
        · simp only [getLatestClientSnapshot, dif_neg hlen] at h
          cases h
          exact .mismatch row hlatest hlen
    · cases h
  · cases h
    exact .fails _ _ (by simp) (by simp) (by simp)
  · split at h
    · rename_i hpeers
      cases h
      exact .lists _ _ hpeers
    · cases h
  · split at h
    · rename_i hcall
      cases h
      exact .fulfilled _ _ hcall rfl
    · rename_i e _ _ _ hcall
      cases h
      obtain ⟨h₁, h₂, h₃⟩ := Error.ofServer_ne e
      exact .fails _ _ h₁ h₂ h₃
    · cases h
  · cases h
    exact .fails _ _ (by simp) (by simp) (by simp)
  · split at h
    · rename_i hmem
      cases h
      exact .checks _ _ hmem
    · cases h
      exact .fails _ _ (by simp) (by simp) (by simp)
  · cases h
    exact .notifies _ _
  · rename_i e _ _
    cases h
    obtain ⟨h₁, h₂, h₃⟩ := Error.ofServer_ne e
    exact .fails _ _ h₁ h₂ h₃
  · cases h

/-- What each action does. -/
inductive Moved (V : SignatureScheme) (s : State D) : Action → State D → Prop
  | auths (a : Auth.Action) (auth : Auth.State D) : Auth.step V s.auth a = some auth →
      Moved V s (.auth a) { s with auth := auth }
  | fulfills (a : Server.Action) (matching : Matching) : (∀ r, a ≠ .request r) →
      matchingStep s.matching a = some matching →
      Moved V s (.matching a) { s with matching := matching }
  | refuses (token : SessionToken) (body : Body) :
      s.auth.shared.auth.getSession token = none →
      Moved V s (.request token body) { s with
        tasks := s.tasks ++ [⟨token, body, none, .answered (.error .unauthorized), s.snapshots⟩] }
  | enters (token : SessionToken) (body : Body) (client : ClientId) (auth : Auth.State D) :
      s.auth.shared.auth.getSession token = some client →
      Auth.step V s.auth (.getSession token) = some auth →
      Moved V s (.request token body) { s with
        auth := auth
        matching := body.enqueue client s.matching
        tasks := s.tasks ++
          [⟨token, body, some client, body.first client s.matching.tasks.length, s.snapshots⟩] }
  | handles (i : ℕ) (event : Event) (t : Task) (client : ClientId) (snapshots : List Snapshot)
      (notified : List (ClientId × ServerMessageWs)) (stage : Stage) :
      s.tasks[i]? = some t → t.client = some client →
      Handled s client t.stage snapshots notified stage →
      Moved V s (.handle i event) { s with
        snapshots := snapshots
        notified := notified
        tasks := s.tasks.set i { t with stage := stage } }

theorem moved_of_step {a : Action} (h : step V s a = some s') : Moved V s a s' := by
  cases a with
  | auth a =>
    obtain ⟨auth, ha, rfl⟩ := Option.map_eq_some_iff.mp h
    exact .auths a auth ha
  | matching a =>
    cases a with
    | request r => cases h
    | advance i outcome =>
      obtain ⟨m, hm, rfl⟩ := Option.map_eq_some_iff.mp h
      exact .fulfills _ m (by simp) hm
    | expire =>
      obtain ⟨m, hm, rfl⟩ := Option.map_eq_some_iff.mp h
      exact .fulfills _ m (by simp) hm
  | request token body =>
    obtain ⟨auth, ha, rfl⟩ := Option.map_eq_some_iff.mp h
    cases hsession : s.auth.shared.auth.getSession token with
    | none =>
      simp only [Auth.step, hsession] at ha
      cases ha
      simp only [State.arrive, hsession]
      exact .refuses token body hsession
    | some client =>
      simp only [State.arrive, hsession]
      exact .enters token body client auth hsession ha
  | handle i event =>
    simp only [step] at h
    split at h
    · rename_i token body client stage before ht
      obtain ⟨⟨snapshots, notified, stage'⟩, hh, rfl⟩ := Option.map_eq_some_iff.mp h
      exact .handles i event _ client snapshots notified stage' ht rfl (handled_of_handleStep hh)
    · cases h

/-! ## 3. What only grows -/

/-- Rows and messages are added, and the calls of `fulfill` keep their places. -/
structure Grows (s s' : State D) : Prop where
  snapshots : s.snapshots ⊆ s'.snapshots
  notified : s.notified ⊆ s'.notified
  peerBackups : s.peerBackups ⊆ s'.peerBackups
  calls : ∀ (k : ℕ) (call : Call), s.matching.tasks[k]? = some call →
    ∃ call' : Call, s'.matching.tasks[k]? = some call' ∧ call'.request = call.request ∧
      ∀ result, call.phase = .returned result → call' = call

omit [HashMapDelay D] in
theorem Grows.refl (s : State D) : Grows s s :=
  ⟨List.Subset.refl _, List.Subset.refl _, List.Subset.refl _,
    fun _ call hk => ⟨call, hk, rfl, fun _ _ => rfl⟩⟩

theorem notifyClient_rows {outcome : Except Server.Error Unit} {message : BackupMatched}
    {l l' : Ledger} (h : notifyClient outcome client message l = .ok l') :
    l'.peerBackups = l.peerBackups := by
  cases outcome with
  | ok _ =>
    cases h
    rfl
  | error e => cases h

theorem saveStorageNegotiated_rows {outcome : Except Server.Error Unit} {destination : ClientId}
    {size : ℤ} {l l' : Ledger}
    (h : saveStorageNegotiated outcome client destination size l = .ok l') :
    l.peerBackups ⊆ l'.peerBackups := by
  cases outcome with
  | ok _ =>
    cases h
    exact List.subset_append_left _ _
  | error e => cases h

theorem start_request (r : Request) : (Call.start r).request = r := by
  simp only [Call.start]
  repeat' split
  all_goals rfl

theorem compare_request (call : Call) (d : Request) (m : ℕ) :
    (call.compare d m).request = call.request := by
  simp only [Call.compare]
  repeat' split
  all_goals rfl

/-- A call that takes a step has not returned, and it deletes no row. -/
theorem advance_keeps {sh sh' : Shared} {call call' : Call} {outcome : Except Server.Error Unit}
    (h : call.advance outcome sh = some (sh', call')) :
    call'.request = call.request ∧ sh.ledger.peerBackups ⊆ sh'.ledger.peerBackups ∧
      ∀ result, call.phase ≠ .returned result := by
  have hrunning : ∀ result, call.phase ≠ .returned result := by
    intro result hreturned
    simp [Call.advance, hreturned] at h
  refine ⟨?_, ?_, hrunning⟩
  · unfold Call.advance at h
    repeat' split at h
    all_goals first
      | cases h; done
      | cases h; rfl
      | cases h; exact compare_request _ _ _
  · unfold Call.advance at h
    repeat' split at h
    all_goals first
      | cases h; done
      | cases h; exact List.Subset.refl _
      | cases h; rename_i hnotify; exact (notifyClient_rows hnotify) ▸ List.Subset.refl _
      | cases h; rename_i hsave; exact saveStorageNegotiated_rows hsave

omit [HashMapDelay D] in
theorem grows_of_matchingStep {a : Server.Action} {matching : Matching}
    (h : matchingStep s.matching a = some matching) : Grows s { s with matching := matching } := by
  cases a with
  | request r =>
    cases h
    refine ⟨List.Subset.refl _, List.Subset.refl _, List.Subset.refl _, ?_⟩
    intro k call hk
    exact ⟨call, List.getElem?_append_left (List.getElem?_eq_some_iff.mp hk).1 ▸ hk, rfl,
      fun _ _ => rfl⟩
  | advance i outcome =>
    obtain ⟨call, sh, call', hi, hadvance, rfl⟩ := Pool.advance_eq_some.mp h
    obtain ⟨hrequest, hrows, hrunning⟩ := advance_keeps hadvance
    refine ⟨List.Subset.refl _, List.Subset.refl _, hrows, ?_⟩
    intro k other hk
    by_cases hki : k = i
    · subst hki
      obtain rfl := Option.some.inj (hi.symm.trans hk)
      refine ⟨call', List.getElem?_set_self (List.getElem?_eq_some_iff.mp hi).1, hrequest, ?_⟩
      intro result hreturned
      exact absurd hreturned (hrunning result)
    · exact ⟨other, (List.getElem?_set_ne (Ne.symm hki)).trans hk, rfl, fun _ _ => rfl⟩
  | expire =>
    simp only [matchingStep] at h
    split at h
    · cases h
    · cases h
      exact ⟨List.Subset.refl _, List.Subset.refl _, List.Subset.refl _,
        fun _ call hk => ⟨call, hk, rfl, fun _ _ => rfl⟩⟩

omit [HashMapDelay D] in
theorem grows_enqueue (body : Body) (client : ClientId) :
    Grows s { s with matching := body.enqueue client s.matching } := by
  cases body with
  | makeBackupRequest n =>
    exact grows_of_matchingStep (a := .request ⟨n, client⟩) rfl
  | _ => exact .refl s

omit [HashMapDelay D] in
theorem grows_of_handled (h : Handled s client stage snapshots notified stage') :
    s.snapshots ⊆ snapshots ∧ s.notified ⊆ notified := by
  cases h
  all_goals first
    | exact ⟨List.Subset.refl _, List.Subset.refl _⟩
    | exact ⟨List.subset_append_left _ _, List.Subset.refl _⟩
    | exact ⟨List.Subset.refl _, List.subset_append_left _ _⟩

omit [HashMapDelay D] in
/-- A row that a step adds is of the client, and refers to what is there. -/
theorem new_snapshot (h : Handled s client stage snapshots notified stage') :
    ∀ row ∈ snapshots, row ∈ s.snapshots ∨ row.clientPubkey = client ∧
      row.snapshotHash.length = 32 ∧ row.negotiated = s.peerBackups := by
  intro row hrow
  cases h with
  | saves hash timestamp hregistered =>
    rcases List.mem_append.mp hrow with hrow | hrow
    · exact Or.inl hrow
    · obtain rfl := List.mem_singleton.mp hrow
      exact Or.inr ⟨rfl, hash.length_eq, rfl⟩
  | _ => exact Or.inl hrow

theorem grows_of_moved {a : Action} (h : Moved V s a s') : Grows s s' := by
  cases h with
  | auths a auth ha => exact ⟨List.Subset.refl _, List.Subset.refl _, List.Subset.refl _,
      (Grows.refl s).calls⟩
  | fulfills a matching hne hm => exact grows_of_matchingStep hm
  | refuses token body hnone => exact ⟨List.Subset.refl _, List.Subset.refl _,
      List.Subset.refl _, (Grows.refl s).calls⟩
  | enters token body client auth hsome ha =>
    have hgrows := grows_enqueue (s := s) body client
    exact ⟨List.Subset.refl _, List.Subset.refl _, hgrows.peerBackups, hgrows.calls⟩
  | handles i event t client snapshots notified stage ht hclient hh =>
    obtain ⟨hsnapshots, hnotified⟩ := grows_of_handled hh
    exact ⟨hsnapshots, hnotified, List.Subset.refl _, (Grows.refl s).calls⟩

/-! ## 4. Where a request is -/

/-- The message that a request leads to. -/
def Sends (client : ClientId) (body : Body) (other : ClientId) (message : ServerMessageWs) :
    Prop :=
  (∃ nonce, body = .p2pConnectionBegin other nonce ∧
    message = .incomingP2PConnection client nonce) ∨
  ∃ address, body = .p2pConnectionConfirm other address ∧ address.utf8ByteSize ≤ 64 ∧
    message = .finalizeP2PConnection client address

/-- A request of the client has got here. -/
def Leads (s : State D) (client : ClientId) (before : List Snapshot) (body : Body) : Stage → Prop
  | .savingSnapshot hash | .inserting hash _ => body = .backupDone hash
  | .readingSnapshot => body = .backupRestore
  | .readingPeers hash => body = .backupRestore ∧ ∃ row, Recent s client before row hash
  | .fulfilling k => ∃ (n : ℕ) (call : Call), body = .makeBackupRequest n ∧
      s.matching.tasks[k]? = some call ∧ call.request = ⟨n, client⟩
  | .checkingClient other message | .notifying other message => Sends client body other message
  | .answered (.ok message) => Earned s client before body message
  | .answered (.error e) => Excused client before body e

omit [HashMapDelay D] in
theorem Recent.mono (hgrows : Grows s s') {before : List Snapshot} {row : Snapshot}
    {hash : BlobHash} (h : Recent s client before row hash) : Recent s' client before row hash :=
  ⟨hgrows.snapshots h.1, h.2⟩

omit [HashMapDelay D] in
theorem Earned.mono (hgrows : Grows s s') {before : List Snapshot} {body : Body}
    {message : ServerMessage} (h : Earned s client before body message) :
    Earned s' client before body message := by
  unfold Earned at h ⊢
  split at h
  · obtain ⟨row, hrow, hmatch⟩ := h
    exact ⟨row, hgrows.snapshots hrow, hmatch⟩
  · obtain ⟨row, hrecent, hcovered⟩ := h.snapshot
    refine ⟨⟨row, hrecent.mono hgrows, hcovered⟩, ?_, h.distinct⟩
    intro peer hpeer
    obtain ⟨pb, hpb, hmatch⟩ := h.negotiated peer hpeer
    exact ⟨pb, hgrows.peerBackups hpb, hmatch⟩
  · obtain ⟨call, hcall, hrequest, hreturned⟩ := h
    obtain ⟨k, hk⟩ := List.mem_iff_getElem?.mp hcall
    obtain ⟨call', hk', -, hsame⟩ := hgrows.calls k call hk
    obtain rfl := hsame _ hreturned
    exact ⟨call', List.mem_of_getElem? hk', hrequest, hreturned⟩
  · exact hgrows.notified h
  · exact ⟨hgrows.notified h.1, h.2⟩
  · exact h

omit [HashMapDelay D] in
theorem Leads.mono (hgrows : Grows s s') {before : List Snapshot} {body : Body}
    (h : Leads s client before body stage) : Leads s' client before body stage := by
  unfold Leads at h ⊢
  split at h
  · exact h
  · exact h
  · exact h
  · obtain ⟨hbody, row, hrecent⟩ := h
    exact ⟨hbody, row, hrecent.mono hgrows⟩
  · obtain ⟨n, call, hbody, hk, hrequest⟩ := h
    obtain ⟨call', hk', hrequest', -⟩ := hgrows.calls _ call hk
    exact ⟨n, call', hbody, hk', hrequest'.trans hrequest⟩
  · exact h
  · exact h
  · exact Earned.mono hgrows h
  · exact h

omit [HashMapDelay D] in
/-- A step of a handler leads on. -/
theorem Leads.handled {before : List Snapshot} {body : Body}
    (h : Leads s client before body stage)
    (hlengths : ∀ row ∈ s.snapshots, row.snapshotHash.length = 32)
    (hbefore : before ⊆ s.snapshots)
    (hnegotiated : ∀ row ∈ s.snapshots, row.negotiated ⊆ s.peerBackups)
    (hh : Handled s client stage snapshots notified stage') (tasks : List Task) :
    Leads { s with snapshots := snapshots, notified := notified, tasks := tasks } client before
      body stage' := by
  cases hh with
  | executes hash => exact h
  | saves hash timestamp hmem =>
    obtain rfl : body = .backupDone hash := h
    exact ⟨_, List.mem_append_right _ List.mem_cons_self, rfl, rfl⟩
  | finds row hash hlatest hhash =>
    obtain ⟨hrow, hclient, hmax⟩ := hlatest
    exact ⟨h, row, hrow, hclient, hhash, fun r hr => hmax r (hbefore hr)⟩
  | findsNone hlatest => exact ⟨h, fun r hr => hlatest r (hbefore hr)⟩
  | mismatch row hlatest hlen => exact absurd (hlengths row hlatest.1) hlen
  | lists hash peers hpeers =>
    obtain ⟨rfl, row, hrecent⟩ := h
    have hmem : ∀ d, d ∈ peers ↔ ∃ pb ∈ s.peerBackups, pb.source = client ∧ pb.destination = d := by
      intro d
      rw [hpeers.mem_iff]
      simp [and_assoc]
    refine ⟨⟨row, hrecent, ?_⟩, fun d hd => (hmem d).mp hd, ?_⟩
    · intro pb hpb hsource
      exact (hmem _).mpr ⟨pb, hnegotiated row hrecent.1 hpb, hsource, rfl⟩
    · exact (hpeers.nodup_iff).mpr (List.nodup_dedup _)
  | fulfilled k call hk hreturned =>
    obtain ⟨n, call', rfl, hk', hrequest⟩ := h
    obtain rfl := Option.some.inj (hk'.symm.trans hk)
    exact ⟨call', List.mem_of_getElem? hk, hrequest, hreturned⟩
  | checks other message hmem => exact h
  | notifies other message =>
    have hsent : (other, message) ∈ s.notified ++ [(other, message)] :=
      List.mem_append_right _ List.mem_cons_self
    rcases h with ⟨nonce, rfl, rfl⟩ | ⟨address, rfl, hle, rfl⟩
    · exact hsent
    · exact ⟨hsent, hle⟩
  | fails stage e hauth hmismatch hnone =>
    cases e <;> trivial

omit [HashMapDelay D] in
/-- A new request is where its body begins. -/
theorem Leads.first (s : State D) (client : ClientId) (body : Body) (tasks : List Task)
    (auth : Auth.State D) : Leads { s with
      auth := auth
      matching := body.enqueue client s.matching
      tasks := tasks } client s.snapshots body (body.first client s.matching.tasks.length) := by
  cases body with
  | backupDone hash => exact rfl
  | backupRestore => exact rfl
  | makeBackupRequest n =>
    refine ⟨n, .start ⟨n, client⟩, rfl, List.getElem?_concat_length, ?_⟩
    exact start_request _
  | p2pConnectionBegin destination nonce => exact Or.inl ⟨nonce, rfl, rfl⟩
  | p2pConnectionConfirm source address =>
    unfold Body.first
    by_cases h : 64 < address.utf8ByteSize
    · simp only [h, if_true]
      trivial
    · simp only [h, if_false]
      exact Or.inr ⟨address, rfl, Nat.not_lt.mp h, rfl⟩

/-! ## 5. Every run -/

/-- What holds of a request. -/
def Task.Proper (s : State D) (t : Task) : Prop :=
  match t.client with
  | none => t.stage = .answered (.error .unauthorized)
  | some client => Leads s client t.before t.body t.stage

/-- What holds in every state. -/
structure InOrder (s : State D) : Prop where
  lengths : ∀ row ∈ s.snapshots, row.snapshotHash.length = 32
  negotiated : ∀ row ∈ s.snapshots, row.negotiated ⊆ s.peerBackups
  before : ∀ t ∈ s.tasks, t.before ⊆ s.snapshots
  tasks : ∀ t ∈ s.tasks, t.Proper s

omit [HashMapDelay D] in
theorem Task.Proper.mono (hgrows : Grows s s') {t : Task} (h : t.Proper s) : t.Proper s' := by
  unfold Task.Proper at h ⊢
  split at h
  · exact h
  · exact Leads.mono hgrows h

theorem inOrder_start (clients : List ClientId) : InOrder (start D clients) := by
  constructor <;> simp [start]

omit [HashMapDelay D] in
/-- Nothing but the tables of others has changed. -/
theorem InOrder.mono (h : InOrder s) (hgrows : Grows s s') (hsnapshots : s'.snapshots = s.snapshots)
    (htasks : s'.tasks = s.tasks) : InOrder s' where
  lengths := hsnapshots ▸ h.lengths
  negotiated row hrow :=
    List.Subset.trans (h.negotiated row (hsnapshots ▸ hrow)) hgrows.peerBackups
  before := htasks ▸ hsnapshots ▸ h.before
  tasks t ht := (h.tasks t (htasks ▸ ht)).mono hgrows

omit [HashMapDelay D] in
/-- A request arrives. -/
theorem InOrder.spawn (h : InOrder s) {t : Task} (hbefore : t.before ⊆ s.snapshots)
    (ht : t.Proper s) : InOrder { s with tasks := s.tasks ++ [t] } where
  lengths := h.lengths
  negotiated := h.negotiated
  before := Pool.forall_mem_spawn h.before hbefore
  tasks := by
    have hgrows : Grows s { s with tasks := s.tasks ++ [t] } :=
      ⟨List.Subset.refl _, List.Subset.refl _, List.Subset.refl _, (Grows.refl s).calls⟩
    exact Pool.forall_mem_spawn (fun x hx => (h.tasks x hx).mono hgrows) (ht.mono hgrows)

omit [HashMapDelay D] in
theorem InOrder.handled (h : InOrder s) {i : ℕ} {t : Task} (ht : s.tasks[i]? = some t)
    (hclient : t.client = some client) (hh : Handled s client t.stage snapshots notified stage) :
    InOrder { s with
      snapshots := snapshots
      notified := notified
      tasks := s.tasks.set i { t with stage := stage } } := by
  have hmem : t ∈ s.tasks := List.mem_of_getElem? ht
  obtain ⟨hsnapshots, hnotified⟩ := grows_of_handled hh
  have hnew := new_snapshot hh
  have hgrows : Grows s { s with
      snapshots := snapshots
      notified := notified
      tasks := s.tasks.set i { t with stage := stage } } :=
    ⟨hsnapshots, hnotified, List.Subset.refl _, (Grows.refl s).calls⟩
  constructor
  · intro row hrow
    rcases hnew row hrow with hold | ⟨-, hlen, -⟩
    · exact h.lengths row hold
    · exact hlen
  · intro row hrow
    rcases hnew row hrow with hold | ⟨-, -, heq⟩
    · exact h.negotiated row hold
    · exact heq ▸ List.Subset.refl _
  · have hall : ∀ x ∈ s.tasks, x.before ⊆ snapshots := fun x hx =>
      List.Subset.trans (h.before x hx) hsnapshots
    exact Pool.forall_mem_set hall (hall t hmem)
  · refine Pool.forall_mem_set (fun x hx => (h.tasks x hx).mono hgrows) ?_
    have hproper := h.tasks t hmem
    simp only [Task.Proper, hclient] at hproper ⊢
    exact hproper.handled h.lengths (h.before t hmem) h.negotiated hh _

theorem inOrder_step {a : Action} (h : InOrder s) (hst : step V s a = some s') : InOrder s' := by
  have hmoved := moved_of_step hst
  have hgrows := grows_of_moved hmoved
  cases hmoved with
  | auths a auth ha => exact h.mono hgrows rfl rfl
  | fulfills a matching hne hm => exact h.mono hgrows rfl rfl
  | refuses token body hnone => exact h.spawn (List.Subset.refl _) rfl
  | enters token body client auth hsome ha =>
    have hentered : InOrder { s with auth := auth, matching := body.enqueue client s.matching } :=
      h.mono ⟨hgrows.snapshots, hgrows.notified, hgrows.peerBackups, hgrows.calls⟩ rfl rfl
    exact hentered.spawn (List.Subset.refl _) (Leads.first s client body s.tasks auth)
  | handles i event t client snapshots notified stage ht hclient hh =>
    exact h.handled ht hclient hh

/-- In every run of the server, with any requests of anyone in any order and any failures of the
database and of the connections, every answer is earned. -/
theorem answers_earned {clients : List ClientId}
    (h : Reach (step V) (fun _ _ => True) (start D clients) s) :
    ∀ t ∈ s.tasks, ∀ answer, t.stage = .answered answer → Justified s t answer := by
  have hin : InOrder s := h.invariant (inOrder_start clients) fun _ _ _ hi _ hst =>
    inOrder_step hi hst
  intro t ht answer hanswer
  have hproper := hin.tasks t ht
  unfold Task.Proper at hproper
  unfold Justified
  cases hclient : t.client with
  | none =>
    simp only [hclient, hanswer, Stage.answered.injEq] at hproper
    exact hproper
  | some client =>
    simp only [hclient, hanswer] at hproper
    cases answer with
    | ok message => exact hproper
    | error e => exact hproper

/-- A registered client logs in, as the `i`-th request for a nonce. -/
def logIn (client : ClientId) (i : ℕ) (nonce token : FixedBytes 16) : List Action :=
  [.auth (.loginBegin client), .auth (.handle i (.clientExists true)),
   .auth (.handle i (.challengeBegin (some nonce))), .auth (.sign client nonce),
   .auth (.loginComplete client (Auth.stamp client nonce)),
   .auth (.handle (i + 1) .challengeVerify), .auth (.handle (i + 1) (.sessionStart (some token))),
   .auth (.handle (i + 1) (.clientUpdateLoggedIn true))]

/-- Alice and Bob are matched, Alice reports a backup, and asks for it. -/
def aliceAsks : List Action :=
  logIn alice 0 (.fill 7) (.fill 9) ++ logIn bob 2 (.fill 8) (.fill 10) ++
  [.request (.fill 9) (.makeBackupRequest 10), .matching (.advance 0 (.ok ())),
   .matching (.advance 0 (.ok ())), .handle 0 .fulfilled,
   .request (.fill 10) (.makeBackupRequest 10)] ++
  List.replicate 5 (.matching (.advance 1 (.ok ()))) ++
  [.handle 1 .fulfilled, .request (.fill 9) (.backupDone (.fill 5)), .handle 2 .execute,
   .handle 2 (.insert true), .request (.fill 9) .backupRestore,
   .handle 3 (.latestSnapshot (some (some ⟨alice, (FixedBytes.fill 5 : BlobHash).bytes, 0,
     [⟨bob, alice, 10⟩, ⟨alice, bob, 10⟩]⟩)))]

def aliceRestores : List Action := aliceAsks ++ [.handle 3 (.negotiatedPeers (some [bob]))]

theorem aliceRestores_run : (run (step Auth.stampScheme) (start DelayMap [alice, bob])
    aliceRestores).any
    (fun s => (s.tasks[3]?).any fun t => decide (t.client = some alice ∧
      t.stage = .answered (.ok (.backupRestoreInfo ⟨.fill 5, [bob]⟩)))) = true := by
  decide +kernel

theorem answers_earned_alice : ∃ (s : State DelayMap) (t : Task),
    t.stage = .answered (.ok (.backupRestoreInfo ⟨.fill 5, [bob]⟩)) ∧
    Justified s t (.ok (.backupRestoreInfo ⟨.fill 5, [bob]⟩)) := by
  obtain ⟨s, hrun, hs⟩ := (Option.any_eq_true _ _).mp aliceRestores_run
  obtain ⟨t, ht, hstage⟩ := (Option.any_eq_true _ _).mp hs
  obtain ⟨-, hstage⟩ := of_decide_eq_true hstage
  exact ⟨s, t, hstage, answers_earned (reach_of_run_true hrun) t (List.mem_of_getElem? ht) _ hstage⟩

end

end Backuwup.Server.Endpoints
