/-
# A restore unpacks complete data (`backup/mod.rs`)

A call of `run_restore` that has failed can see the flag and the map of the next one and unpack what
is not there (`unpacks_nothing`).  `unpacks_complete` says when this cannot happen: no session and
no call takes part in a restore that has been initialised after its own (`InTurn`).  Then `unpack`
is reached only with all that each peer had stored when it began to send.

The invariant is about the restore that has been initialised last, while it waits.  Each peer has
one session of it, and is completed only if that has ended well (`Orderly`).  What its sessions have
saved is whole in the folder, unless one of them has failed (`Kept`).  Once it finds all peers
completed, none of its sessions is left to fail (`Settled`).
-/
import Backuwup.Client.Orchestrator.RestoreRuns

namespace Backuwup.Client

namespace RestoreRuns

open Restoring (Phase)

/-! ## 1. The restore that has been initialised last -/

namespace Progress

/-- The peers that the call has not added. -/
def rest : Progress → List ClientId
  | contacting _ rest | added _ _ rest | registered _ rest => rest
  | _ => []

/-- The peer that has been added and has no request yet. -/
def unasked : Progress → List ClientId
  | added _ peer _ => [peer]
  | _ => []

/-- The server's list. -/
def peers : Progress → List ClientId
  | contacting peers _ | added peers _ _ | registered peers _ | checked peers => peers
  | _ => []

/-- The call has not heard from the server. -/
def fresh : Progress → Bool
  | idle | locking | requesting => true
  | _ => false

end Progress

def Session.key (x : Session) : ClientId × ℕ := (x.peer, x.restore)

/-- The peers of restore `k` among requests or sessions. -/
def ofRestore (k : ℕ) (keys : List (ClientId × ℕ)) : List ClientId :=
  (keys.filter fun r => r.2 = k).map Prod.fst

/-- The map has the peer, and not as completed. -/
def Incomplete (status : List (ClientId × Bool)) (peer : ClientId) : Prop :=
  (peer, false) ∈ status ∧ (peer, true) ∉ status

/-- Each peer has one session of restore `k`, and is completed only if that has ended well. -/
structure Orderly (k : ℕ) (pc : Progress) (status : List (ClientId × Bool))
    (requests : List (ClientId × ℕ)) (tasks : List Session) : Prop where
  nodup : (pc.rest ++ (pc.unasked ++ ofRestore k (requests ++ tasks.map Session.key))).Nodup
  asked : ∀ p ∈ pc.unasked ++ ofRestore k requests, Incomplete status p
  session : ∀ x ∈ tasks, x.restore = k → Incomplete status x.peer ∨ x.phase = .ended false
  known : ∀ p ∈ pc.peers, p ∈ pc.rest ∨ ∃ b, (p, b) ∈ status
  completed : ∀ p ∈ pc.peers, (p, true) ∈ status →
    p ∈ pc.rest ∨ ∃ x ∈ tasks, x.restore = k ∧ x.peer = p ∧ x.phase = .ended false

section

variable {k j : ℕ} {pc pc' : Progress} {r : RestoreOrchestrator} {peer : ClientId}
  {requests requests' : List (ClientId × ℕ)} {tasks : List Session} {peers rest : List ClientId}
  {x x' : Session} {t : ℕ}

theorem mem_ofRestore {keys : List (ClientId × ℕ)} :
    peer ∈ ofRestore k keys ↔ (peer, k) ∈ keys := by
  simp [ofRestore]

theorem ofRestore_append {keys keys' : List (ClientId × ℕ)} :
    ofRestore k (keys ++ keys') = ofRestore k keys ++ ofRestore k keys' := by
  simp [ofRestore]

theorem ofRestore_self : ofRestore k [(peer, k)] = [peer] := by simp [ofRestore]

theorem ofRestore_ne (h : j ≠ k) : ofRestore k [(peer, j)] = [] := by simp [ofRestore, h]

theorem ofRestore_sublist {keys keys' : List (ClientId × ℕ)} (h : keys.Sublist keys') :
    (ofRestore k keys).Sublist (ofRestore k keys') :=
  (h.filter _).map _

theorem ofRestore_eq_nil {keys : List (ClientId × ℕ)} (h : ∀ x ∈ keys, x.2 ≠ k) :
    ofRestore k keys = [] := by
  simpa [ofRestore] using h

theorem session_unique {y : Session} (h : (ofRestore k (tasks.map Session.key)).Nodup)
    (hx : x ∈ tasks) (hy : y ∈ tasks) (hxk : x.restore = k) (hyk : y.restore = k)
    (hpeer : y.peer = x.peer) : x = y := by
  have hmap : ofRestore k (tasks.map Session.key) =
      (tasks.filter fun z => z.restore = k).map Session.peer := by
    simp only [ofRestore, List.filter_map, List.map_map]
    rfl
  rw [hmap] at h
  exact List.inj_on_of_nodup_map h (by simp [hx, hxk]) (by simp [hy, hyk]) hpeer.symm

theorem mem_insertPeer {b : Bool} {e : ClientId × Bool} :
    e ∈ (r.insertPeer peer b).peerRestoreStatus ↔
      e = (peer, b) ∨ (e ∈ r.peerRestoreStatus ∧ e.1 ≠ peer) := by
  simp only [RestoreOrchestrator.insertPeer, List.mem_append, List.mem_filter, decide_eq_true_eq,
    List.mem_singleton]
  exact or_comm

theorem incomplete_insertPeer : Incomplete (r.insertPeer peer false).peerRestoreStatus peer := by
  constructor
  · exact mem_insertPeer.mpr (Or.inl rfl)
  · simp [mem_insertPeer]

theorem Incomplete.insertPeer {p : ClientId} {b : Bool} (h : Incomplete r.peerRestoreStatus p)
    (hb : b = true → p ≠ peer) : Incomplete (r.insertPeer peer b).peerRestoreStatus p := by
  by_cases hp : p = peer
  · cases b with
    | false => exact hp ▸ incomplete_insertPeer
    | true => exact absurd hp (hb rfl)
  · refine ⟨mem_insertPeer.mpr (Or.inr ⟨h.1, hp⟩), fun hmem => ?_⟩
    rcases mem_insertPeer.mp hmem with heq | ⟨hold, -⟩
    · exact hp (congrArg Prod.fst heq)
    · exact h.2 hold

theorem known_insertPeer {p : ClientId} {b : Bool} (h : ∃ b, (p, b) ∈ r.peerRestoreStatus) :
    ∃ b', (p, b') ∈ (r.insertPeer peer b).peerRestoreStatus := by
  obtain ⟨b', hb'⟩ := h
  by_cases hp : p = peer
  · exact ⟨b, mem_insertPeer.mpr (Or.inl (by rw [hp]))⟩
  · exact ⟨b', mem_insertPeer.mpr (Or.inr ⟨hb', hp⟩)⟩

/-- A restore that has made no request is in order. -/
theorem orderly_fresh {status : List (ClientId × Bool)} (hreqs : ∀ q ∈ requests, q.2 ≠ k)
    (htasks : ∀ x ∈ tasks, x.restore ≠ k) (hnodup : pc.rest.Nodup) (hunasked : pc.unasked = [])
    (hrest : ∀ p ∈ pc.peers, p ∈ pc.rest) : Orderly k pc status requests tasks := by
  have hnone : ofRestore k (tasks.map Session.key) = [] :=
    ofRestore_eq_nil (List.forall_mem_map.mpr htasks)
  have hnot : ofRestore k requests = [] := ofRestore_eq_nil hreqs
  exact {
    nodup := by simpa [hunasked, ofRestore_append, hnone, hnot] using hnodup
    asked := by simp [hunasked, hnot]
    session := fun x hx hk => absurd hk (htasks x hx)
    known := fun p hp => Or.inl (hrest p hp)
    completed := fun p hp _ => Or.inl (hrest p hp) }

/-- Between two steps that ask nobody, the progress does not matter. -/
theorem Orderly.move {status : List (ClientId × Bool)} (h : Orderly k pc status requests tasks)
    (hrest : pc'.rest = pc.rest) (hunasked : pc'.unasked = pc.unasked)
    (hpeers : pc'.peers = pc.peers) : Orderly k pc' status requests tasks where
  nodup := by rw [hrest, hunasked]; exact h.nodup
  asked := by rw [hunasked]; exact h.asked
  session := h.session
  known := by rw [hrest, hpeers]; exact h.known
  completed := by rw [hrest, hpeers]; exact h.completed

/-- A peer may be set back by any call. -/
theorem Orderly.setBack (h : Orderly k pc r.peerRestoreStatus requests tasks) :
    Orderly k pc (r.insertPeer peer false).peerRestoreStatus requests tasks where
  nodup := h.nodup
  asked p hp := (h.asked p hp).insertPeer (by simp)
  session x hx hk := (h.session x hx hk).imp_left fun hinc => hinc.insertPeer (by simp)
  known p hp := (h.known p hp).imp_right known_insertPeer
  completed p hp htrue := by
    rcases mem_insertPeer.mp htrue with heq | ⟨hold, -⟩
    · simp at heq
    · exact h.completed p hp hold

theorem Orderly.add {status : List (ClientId × Bool)}
    (h : Orderly k (.contacting peers (peer :: rest)) status requests tasks)
    (hinc : Incomplete status peer) : Orderly k (.added peers peer rest) status requests tasks where
  nodup := List.perm_middle.symm.nodup h.nodup
  asked := List.forall_mem_cons.mpr ⟨hinc, h.asked⟩
  session := h.session
  known p hp := by
    rcases h.known p hp with hrest | hknown
    · rcases List.mem_cons.mp hrest with rfl | hrest
      · exact Or.inr ⟨false, hinc.1⟩
      · exact Or.inl hrest
    · exact Or.inr hknown
  completed p hp htrue := by
    rcases h.completed p hp htrue with hrest | hdone
    · rcases List.mem_cons.mp hrest with rfl | hrest
      · exact absurd htrue hinc.2
      · exact Or.inl hrest
    · exact Or.inr hdone

/-- Requests may go away. -/
theorem Orderly.withdraw {status : List (ClientId × Bool)}
    (h : Orderly k pc status requests tasks)
    (hsub : (ofRestore k requests').Sublist (ofRestore k requests)) :
    Orderly k pc status requests' tasks where
  nodup := by
    refine h.nodup.sublist (((List.Sublist.append_left ?_ _)).append_left _)
    rw [ofRestore_append, ofRestore_append]
    exact hsub.append_right _
  asked p hp := h.asked p (((hsub.append_left _).subset) hp)
  session := h.session
  known := h.known
  completed := h.completed

theorem ofRestore_filter_sublist (peer : ClientId) :
    (ofRestore k (requests.filter fun q => q.1 ≠ peer)).Sublist (ofRestore k requests) :=
  ofRestore_sublist List.filter_sublist

theorem ofRestore_filter : ofRestore k (requests.filter fun q => q.1 ≠ peer) =
    (ofRestore k requests).filter fun p => p ≠ peer := by
  simp only [ofRestore, List.filter_map, List.filter_filter, Function.comp_def]
  congr 2
  funext q
  exact Bool.and_comm _ _

theorem perm_of_taken {l l' : List ClientId} (h : l.Nodup) (hmem : peer ∈ l) :
    (l ++ l').Perm (l.filter (fun p => p ≠ peer) ++ (l' ++ [peer])) := by
  have herase : l.Perm (peer :: l.filter fun p => p ≠ peer) := by
    have heq : l.erase peer = l.filter fun p => p ≠ peer := by
      rw [h.erase_eq_filter]
      exact List.filter_congr fun p _ => Bool.eq_iff_iff.mpr (by simp)
    exact heq ▸ List.perm_cons_erase hmem
  refine (herase.append_right l').trans ?_
  rw [← List.append_assoc]
  exact (List.perm_append_singleton peer _).symm

theorem Orderly.register {status : List (ClientId × Bool)}
    (h : Orderly k (.added peers peer rest) status requests tasks) :
    Orderly k (.registered peers rest) status (requests ++ [(peer, k)]) tasks := by
  refine {
    nodup := ?_
    asked := fun p hp => ?_
    session := h.session
    known := h.known
    completed := h.completed }
  · have hmove : (peer :: ofRestore k (requests ++ tasks.map Session.key)).Perm
        (ofRestore k (requests ++ [(peer, k)] ++ tasks.map Session.key)) := by
      simp only [ofRestore_append, ofRestore_self, List.append_assoc]
      exact List.perm_middle.symm
    exact (hmove.append_left _).nodup h.nodup
  · refine h.asked p ?_
    simp only [Progress.unasked, ofRestore_append, ofRestore_self, List.nil_append,
      List.mem_append, List.mem_singleton] at hp ⊢
    exact hp.symm

/-- The request is not remembered. -/
theorem Orderly.passOver {status : List (ClientId × Bool)}
    (h : Orderly k (.added peers peer rest) status requests tasks) :
    Orderly k (.registered peers rest) status requests tasks where
  nodup := h.nodup.sublist ((List.sublist_cons_self peer _).append_left rest)
  asked p hp := h.asked p (List.mem_cons_of_mem _ hp)
  session := h.session
  known := h.known
  completed := h.completed

/-- A request becomes a session. -/
theorem Orderly.connect {status : List (ClientId × Bool)}
    (h : Orderly k pc status requests tasks) (hreq : (peer, j) ∈ requests) :
    Orderly k pc status (requests.filter fun q => q.1 ≠ peer) (tasks ++ [.opened j peer]) := by
  have hless := h.withdraw (ofRestore_filter_sublist peer)
  by_cases hj : j = k
  · subst hj
    have hasked : Incomplete status peer :=
      h.asked peer (List.mem_append_right _ (mem_ofRestore.mpr hreq))
    have hnodup : (ofRestore j requests).Nodup := by
      have hall := (List.nodup_append.mp (List.nodup_append.mp h.nodup).2.1).2.1
      rw [ofRestore_append] at hall
      exact (List.nodup_append.mp hall).1
    refine {
      nodup := ?_
      asked := hless.asked
      session := List.forall_mem_append.mpr ⟨h.session, ?_⟩
      known := h.known
      completed := fun p hp htrue => ?_ }
    · have hperm : (ofRestore j (requests ++ tasks.map Session.key)).Perm
          (ofRestore j ((requests.filter fun q => q.1 ≠ peer) ++
            (tasks ++ [Session.opened j peer]).map Session.key)) := by
        have hself : ofRestore j [(Session.opened j peer).key] = [peer] := ofRestore_self
        simp only [List.map_append, List.map_cons, List.map_nil, ofRestore_append,
          ofRestore_filter, hself]
        exact perm_of_taken hnodup (mem_ofRestore.mpr hreq)
      exact ((hperm.append_left _).append_left _).nodup h.nodup
    · simpa [Session.opened] using hasked
    · rcases h.completed p hp htrue with hrest | ⟨x, hx, hdone⟩
      · exact Or.inl hrest
      · exact Or.inr ⟨x, List.mem_append_left _ hx, hdone⟩
  · refine {
      nodup := ?_
      asked := hless.asked
      session := List.forall_mem_append.mpr ⟨h.session, by simp [Session.opened, hj]⟩
      known := h.known
      completed := fun p hp htrue => ?_ }
    · have hnone : ofRestore k [(Session.opened j peer).key] = [] := ofRestore_ne hj
      simpa only [List.map_append, List.map_cons, List.map_nil, ofRestore_append, hnone,
        List.append_nil] using hless.nodup
    · rcases h.completed p hp htrue with hrest | ⟨x, hx, hdone⟩
      · exact Or.inl hrest
      · exact Or.inr ⟨x, List.mem_append_left _ hx, hdone⟩

/-- A session moves on, and one that has ended well stays so. -/
theorem Orderly.set {status : List (ClientId × Bool)} (h : Orderly k pc status requests tasks)
    (ht : tasks[t]? = some x) (hkey : x'.key = x.key)
    (hended : x.phase = .ended false → x'.phase = .ended false) :
    Orderly k pc status requests (tasks.set t x') := by
  obtain ⟨hpeer, hrestore⟩ := Prod.mk.inj hkey
  have hx : x ∈ tasks := List.mem_of_getElem? ht
  refine {
    nodup := by rw [Pool.map_set Session.key ht hkey]; exact h.nodup
    asked := h.asked
    session := Pool.forall_mem_set h.session fun hk => ?_
    known := h.known
    completed := fun p hp htrue => (h.completed p hp htrue).imp_right ?_ }
  · rw [hpeer]
    exact (h.session x hx (hrestore ▸ hk)).imp_right hended
  · exact fun hdone => Pool.exists_mem_set ht hdone fun ⟨hk, hq, hd⟩ =>
      ⟨hrestore.trans hk, hpeer.trans hq, hended hd⟩

/-- A session of the restore completes its peer. -/
theorem Orderly.complete (h : Orderly k pc r.peerRestoreStatus requests tasks)
    (ht : tasks[t]? = some x) (hx : x.restore = k) (hended : x.phase = .ended false) :
    Orderly k pc (r.insertPeer x.peer true).peerRestoreStatus requests tasks := by
  have hmem : x ∈ tasks := List.mem_of_getElem? ht
  have hall := (List.nodup_append.mp h.nodup).2.1
  have htask : x.peer ∈ ofRestore k (tasks.map Session.key) :=
    mem_ofRestore.mpr (List.mem_map.mpr ⟨x, hmem, by rw [Session.key, hx]⟩)
  rw [ofRestore_append, ← List.append_assoc] at hall
  have htasks := (List.nodup_append.mp hall).2.1
  refine {
    nodup := h.nodup
    asked := fun p hp => (h.asked p hp).insertPeer fun _ hpx => ?_
    session := fun y hy hyk => ?_
    known := fun p hp => (h.known p hp).imp_right known_insertPeer
    completed := fun p hp htrue => ?_ }
  · exact (List.nodup_append.mp hall).2.2 p hp _ htask hpx
  · by_cases hpeer : y.peer = x.peer
    · exact Or.inr (session_unique htasks hmem hy hx hyk hpeer ▸ hended)
    · exact (h.session y hy hyk).imp_left fun hinc => hinc.insertPeer fun _ => hpeer
  · rcases mem_insertPeer.mp htrue with heq | ⟨hold, -⟩
    · exact Or.inr ⟨x, hmem, hx, (congrArg Prod.fst heq).symm, hended⟩
    · exact h.completed p hp hold

/-- A session of another restore completes a peer that is not waited for. -/
theorem Orderly.completeOther (h : Orderly k pc r.peerRestoreStatus requests tasks)
    (hnot : (peer, false) ∉ r.peerRestoreStatus) :
    Orderly k pc (r.insertPeer peer true).peerRestoreStatus requests tasks := by
  have hne (p : ClientId) (hinc : Incomplete r.peerRestoreStatus p) : p ≠ peer := by
    rintro rfl
    exact hnot hinc.1
  refine {
    nodup := h.nodup
    asked := fun p hp => (h.asked p hp).insertPeer fun _ => hne p (h.asked p hp)
    session := fun x hx hk => (h.session x hx hk).imp_left fun hinc =>
      hinc.insertPeer fun _ => hne _ hinc
    known := fun p hp => (h.known p hp).imp_right known_insertPeer
    completed := fun p hp htrue => ?_ }
  rcases mem_insertPeer.mp htrue with heq | ⟨hold, -⟩
  · obtain rfl : p = peer := congrArg Prod.fst heq
    rcases h.known p hp with hrest | ⟨b, hb⟩
    · exact Or.inl hrest
    · cases b with
      | false => exact absurd hb hnot
      | true => exact h.completed p hp hb
  · exact h.completed p hp hold

/-- Restore `k` has no request left, and the session it has had with each peer has ended well. -/
structure Settled (k : ℕ) (peers : List ClientId) (requests : List (ClientId × ℕ))
    (tasks : List Session) : Prop where
  requests : ∀ q ∈ requests, q.2 ≠ k
  ended : ∀ x ∈ tasks, x.restore = k → x.phase = .ended false
  peers : ∀ p ∈ peers, ∃ x ∈ tasks, x.restore = k ∧ x.peer = p

/-- When all peers in the map are completed, nothing is left to wait for. -/
theorem Orderly.settled (h : Orderly k (.checked peers) r.peerRestoreStatus requests tasks)
    (hall : r.allPeersCompleted = true) : Settled k peers requests tasks := by
  have htrue (p : ClientId) (b : Bool) (hb : (p, b) ∈ r.peerRestoreStatus) : b = true :=
    List.all_eq_true.mp hall (p, b) hb
  have hnot (p : ClientId) : ¬ Incomplete r.peerRestoreStatus p := fun hinc =>
    absurd (htrue p false hinc.1) (by simp)
  refine ⟨fun q hq hk => ?_, fun x hx hk => ?_, fun p hp => ?_⟩
  · exact hnot q.1 (h.asked q.1 (List.mem_append_right _ (mem_ofRestore.mpr (hk ▸ hq))))
  · exact (h.session x hx hk).resolve_left (hnot x.peer)
  · rcases h.known p hp with hrest | ⟨b, hb⟩
    · simp [Progress.rest] at hrest
    · rcases h.completed p hp (htrue p b hb ▸ hb) with hrest | ⟨x, hx, hk, hxp, -⟩
      · simp [Progress.rest] at hrest
      · exact ⟨x, hx, hk, hxp⟩

theorem Settled.set (h : Settled k peers requests tasks) (ht : tasks[t]? = some x)
    (hkey : x'.key = x.key) (hended : x.phase = .ended false → x'.phase = .ended false) :
    Settled k peers requests (tasks.set t x') := by
  obtain ⟨hpeer, hrestore⟩ := Prod.mk.inj hkey
  refine ⟨h.requests, Pool.forall_mem_set h.ended fun hk => ?_, fun p hp => ?_⟩
  · exact hended (h.ended x (List.mem_of_getElem? ht) (hrestore ▸ hk))
  · exact Pool.exists_mem_set ht (h.peers p hp) fun ⟨hk, hq⟩ =>
      ⟨hrestore.trans hk, hpeer.trans hq⟩

theorem Settled.connect (h : Settled k peers requests tasks) (hreq : (peer, j) ∈ requests) :
    Settled k peers (requests.filter fun q => q.1 ≠ peer) (tasks ++ [.opened j peer]) := by
  refine ⟨fun q hq => h.requests q (List.mem_of_mem_filter hq),
    Pool.forall_mem_spawn h.ended fun hk => absurd hk (h.requests _ hreq), fun p hp => ?_⟩
  obtain ⟨x, hx, hxp⟩ := h.peers p hp
  exact ⟨x, List.mem_append_left _ hx, hxp⟩

end

/-! ## 2. The folder -/

/-- A session of restore `k` has failed, or will say so with its next step. -/
def Failed (k : ℕ) (tasks : List Session) : Prop :=
  ∃ z ∈ tasks, z.restore = k ∧ z.phase.failed = true

/-- What the sessions of restore `k` have saved is whole, unless one of them has failed. -/
def Kept (k : ℕ) (disk : Disk) (tasks : List Session) : Prop :=
  Failed k tasks ∨ ∀ x ∈ tasks, x.restore = k → ∀ f ∈ x.saved, Whole disk tasks f.1

section

variable {k : ℕ} {disk : Disk} {tasks : List Session} {x x' : Session} {t : ℕ} {info : FileInfo}
  {data : Bytes}

theorem Failed.set (h : Failed k tasks) (ht : tasks[t]? = some x) (hkey : x'.key = x.key)
    (hfailed : x.phase.failed = true → x'.phase.failed = true) : Failed k (tasks.set t x') :=
  Pool.exists_mem_set ht h fun ⟨hk, hf⟩ => ⟨(Prod.mk.inj hkey).2.trans hk, hfailed hf⟩

theorem Whole.set (h : Whole disk tasks info) (ht : tasks[t]? = some x)
    (hsaved : ∀ f ∈ x.saved, f ∈ x'.saved) : Whole disk (tasks.set t x') info :=
  Pool.exists_mem_set ht h fun ⟨data, hmem, hread⟩ => ⟨data, hsaved _ hmem, hread⟩

/-- The other files stay whole when one is written. -/
theorem Whole.write (h : Whole disk tasks info) (ht : tasks[t]? = some x)
    (hsaved : ∀ f ∈ x.saved, f ∈ x'.saved) {info' : FileInfo} (hne : info ≠ info') :
    Whole (disk.save data info') (tasks.set t x') info := by
  obtain ⟨y, hy, old, hold, hread⟩ := h.set ht hsaved
  exact ⟨y, hy, old, hold, (Disk.read_save_ne hne).trans hread⟩

theorem Kept.set (h : Kept k disk tasks) (ht : tasks[t]? = some x) (hkey : x'.key = x.key)
    (hsaved : x'.saved = x.saved) (hfailed : x.phase.failed = true → x'.phase.failed = true) :
    Kept k disk (tasks.set t x') := by
  have hsub : ∀ f ∈ x.saved, f ∈ x'.saved := fun f hf => hsaved ▸ hf
  rcases h with hfail | hwhole
  · exact Or.inl (hfail.set ht hkey hfailed)
  · refine Or.inr (Pool.forall_mem_set (fun y hy hyk f hf => ?_) fun hk f hf => ?_)
    · exact (hwhole y hy hyk f hf).set ht hsub
    · exact (hwhole x (List.mem_of_getElem? ht) ((Prod.mk.inj hkey).2 ▸ hk) f
        (hsaved ▸ hf)).set ht hsub

/-- A file is saved, by whatever session. -/
theorem Kept.save (h : Kept k disk tasks) (ht : tasks[t]? = some x) (hkey : x'.key = x.key)
    (hsaved : x'.saved = x.saved ++ [(info, data)]) (hfailed : x.phase.failed = false) :
    Kept k (disk.save data info) (tasks.set t x') := by
  have hsub : ∀ f ∈ x.saved, f ∈ x'.saved := fun f hf => hsaved ▸ List.mem_append_left _ hf
  have hself : Whole (disk.save data info) (tasks.set t x') info :=
    ⟨x', List.mem_set (List.getElem?_eq_some_iff.mp ht).1 x', data, by simp [hsaved], by simp⟩
  have hother (info' : FileInfo) (hw : Whole disk tasks info') :
      Whole (disk.save data info) (tasks.set t x') info' := by
    by_cases hinfo : info' = info
    · exact hinfo ▸ hself
    · exact hw.write ht hsub hinfo
  rcases h with hfail | hwhole
  · exact Or.inl (hfail.set ht hkey fun hf => absurd hf (by simp [hfailed]))
  · refine Or.inr (Pool.forall_mem_set (fun y hy hyk f hf => ?_) fun hk f hf => ?_)
    · exact hother f.1 (hwhole y hy hyk f hf)
    · rw [hsaved] at hf
      rcases List.mem_append.mp hf with hf | hf
      · exact hother f.1 (hwhole x (List.mem_of_getElem? ht) ((Prod.mk.inj hkey).2 ▸ hk) f hf)
      · exact List.mem_singleton.mp hf ▸ hself

/-- A file is torn that the restore has not received. -/
theorem Kept.tear (h : Kept k disk tasks) (ht : tasks[t]? = some x) (hkey : x'.key = x.key)
    (hsaved : x'.saved = x.saved) (hfailed : x.phase.failed = false)
    (hnot : ∀ y ∈ tasks, y.restore = k → info ∉ y.saved.map Prod.fst) :
    Kept k (disk.save data info) (tasks.set t x') := by
  have hsub : ∀ f ∈ x.saved, f ∈ x'.saved := fun f hf => hsaved ▸ hf
  have hne (y : Session) (hy : y ∈ tasks) (hyk : y.restore = k) (f : FileInfo × Bytes)
      (hf : f ∈ y.saved) : f.1 ≠ info :=
    fun heq => hnot y hy hyk (List.mem_map.mpr ⟨f, hf, heq⟩)
  rcases h with hfail | hwhole
  · exact Or.inl (hfail.set ht hkey fun hf => absurd hf (by simp [hfailed]))
  · refine Or.inr (Pool.forall_mem_set (fun y hy hyk f hf => ?_) fun hk f hf => ?_)
    · exact (hwhole y hy hyk f hf).write ht hsub (hne y hy hyk f hf)
    · have hx : x ∈ tasks := List.mem_of_getElem? ht
      have hxk : x.restore = k := (Prod.mk.inj hkey).2 ▸ hk
      rw [hsaved] at hf
      exact (hwhole x hx hxk f hf).write ht hsub (hne x hx hxk f hf)

/-- A file is removed that the restore has not received. -/
theorem Kept.erase (h : Kept k disk tasks)
    (hnot : ∀ y ∈ tasks, y.restore = k → info ∉ y.saved.map Prod.fst) :
    Kept k (disk.erase info) tasks := by
  refine h.imp_right fun hwhole x hx hk f hf => ?_
  have hne : f.1 ≠ info := fun heq => hnot x hx hk (List.mem_map.mpr ⟨f, hf, heq⟩)
  obtain ⟨y, hy, data, hmem, hread⟩ := hwhole x hx hk f hf
  exact ⟨y, hy, data, hmem, (Disk.read_erase_ne hne).trans hread⟩

theorem Kept.spawn (h : Kept k disk tasks) (hx : x.saved = []) : Kept k disk (tasks ++ [x]) := by
  have hmem (y : Session) (hy : y ∈ tasks) : y ∈ tasks ++ [x] := List.mem_append_left _ hy
  rcases h with ⟨z, hz, hfail⟩ | hwhole
  · exact Or.inl ⟨z, hmem z hz, hfail⟩
  · refine Or.inr (Pool.forall_mem_spawn (fun y hy hyk f hf => ?_) fun _ f hf => ?_)
    · obtain ⟨z, hz, hw⟩ := hwhole y hy hyk f hf
      exact ⟨z, hmem z hz, hw⟩
    · simp [hx] at hf

end

/-! ## 3. The steps of the calls -/

/-- The invariant: of every session, of the restore that waits, and of those about to unpack. -/
structure InOrder (s : State) : Prop where
  sound : ∀ x ∈ s.tasks, x.Sound
  begun : ∀ q ∈ s.shared.requests ++ s.tasks.map Session.key, (s.shared.call q.2).fresh = false
  orderly : ∀ k, s.shared.Waiting k → Orderly k (s.shared.call k)
    s.shared.restore.peerRestoreStatus s.shared.requests s.tasks
  settled : ∀ k peers, s.shared.call k = .completed peers →
    Settled k peers s.shared.requests s.tasks
  kept : ∀ k, s.shared.Needs k → Kept k s.shared.disk s.tasks

section

variable {s : State} {k : ℕ} {pc pc' : Progress}

theorem inOrder_start {left : Disk} {stores : ClientId → List (FileInfo × Bytes)} :
    InOrder (start left stores) where
  sound x hx := by simp [start] at hx
  begun q hq := by simp [start] at hq
  orderly k hk := absurd hk.1 (by simp [start])
  settled k peers hk := by simp [start] at hk
  kept k hk := by
    rcases hk with hwaiting | hat
    · exact absurd hwaiting.1 (by simp [start])
    · simp [start, Progress.atUnpack] at hat

/-- A call that has not heard from the server has no request and no session. -/
theorem InOrder.none_of_fresh (h : InOrder s) (hfresh : (s.shared.call k).fresh = true) :
    (∀ q ∈ s.shared.requests, q.2 ≠ k) ∧ ∀ x ∈ s.tasks, x.restore ≠ k := by
  have hne (q : ClientId × ℕ) (hq : q ∈ s.shared.requests ++ s.tasks.map Session.key) :
      q.2 ≠ k := by
    rintro rfl
    exact absurd (h.begun q hq) (by simp [hfresh])
  refine ⟨fun q hq => hne q (List.mem_append_left _ hq), fun x hx => ?_⟩
  exact hne x.key (List.mem_append_right _ (List.mem_map_of_mem hx))

/-- The restore of a call goes on after a step of it only if it went on before. -/
theorem needs_setCall {sh sh' : Shared} (hpc : sh.call k = pc) (hcall : sh'.call = sh.call)
    (hlatest : sh'.latest = sh.latest) (hwaits : pc'.waits = true → pc.waits = true)
    (hat : pc'.atUnpack = true → sh.Needs k) {j : ℕ} (h : (sh'.setCall k pc').Needs j) :
    sh.Needs j := by
  have hcalls : (sh'.setCall k pc').call j = if j = k then pc' else sh.call j := by
    simp only [Shared.setCall, hcall, Function.update_apply]
  by_cases hj : j = k
  · subst hj
    rcases h with ⟨hlast, hw⟩ | ha
    · rw [hcalls, if_pos rfl] at hw
      exact Or.inl ⟨hlatest ▸ hlast, hpc ▸ hwaits hw⟩
    · rw [hcalls, if_pos rfl] at ha
      exact hat ha
  · rcases h with ⟨hlast, hw⟩ | ha
    · rw [hcalls, if_neg hj] at hw
      exact Or.inl ⟨hlatest ▸ hlast, hw⟩
    · rw [hcalls, if_neg hj] at ha
      exact Or.inr ha

/-- A call goes on, and changes what the calls share. -/
theorem InOrder.setCall (h : InOrder s) (sh : Shared) (hpc : s.shared.call k = pc)
    (hcall : sh.call = s.shared.call) (hlatest : sh.latest = s.shared.latest)
    (hfresh : pc.fresh = false → pc'.fresh = false)
    (hwaits : pc'.waits = true → pc.waits = true)
    (hat : ∀ peers, pc' = .completed peers →
      s.shared.Needs k ∧ Settled k peers s.shared.requests s.tasks)
    (hreqs : ∀ q ∈ sh.requests, q ∈ s.shared.requests ∨
      (q.2 = k ∧ pc'.fresh = false ∧ pc'.atUnpack = false))
    (hself : pc'.waits = true → Orderly k pc s.shared.restore.peerRestoreStatus s.shared.requests
      s.tasks → Orderly k pc' sh.restore.peerRestoreStatus sh.requests s.tasks)
    (hother : ∀ j ≠ k, Orderly j (s.shared.call j) s.shared.restore.peerRestoreStatus
      s.shared.requests s.tasks →
      Orderly j (s.shared.call j) sh.restore.peerRestoreStatus sh.requests s.tasks)
    (hkept : ∀ j, s.shared.Needs j → Kept j s.shared.disk s.tasks → Kept j sh.disk s.tasks) :
    InOrder ⟨sh.setCall k pc', s.tasks⟩ := by
  have hcalls (j : ℕ) : (sh.setCall k pc').call j = if j = k then pc' else s.shared.call j := by
    simp only [Shared.setCall, hcall, Function.update_apply]
  have hkeeps (j : ℕ) (hj : (s.shared.call j).fresh = false) :
      ((sh.setCall k pc').call j).fresh = false := by
    rw [hcalls]
    split
    · rename_i hjk
      exact hfresh (by rw [← hpc, ← hjk]; exact hj)
    · exact hj
  have hneeds (j : ℕ) (hj : (sh.setCall k pc').Needs j) : s.shared.Needs j := by
    refine needs_setCall hpc hcall hlatest hwaits (fun ha => ?_) hj
    cases pc' with
    | completed peers => exact (hat peers rfl).1
    | _ => cases ha
  refine ⟨h.sound, fun q hq => ?_, fun j hj => ?_, fun j peers hj => ?_, fun j hj => ?_⟩
  · rcases List.mem_append.mp hq with hq | hq
    · rcases hreqs q hq with hold | ⟨rfl, hnew, -⟩
      · exact hkeeps _ (h.begun q (List.mem_append_left _ hold))
      · rw [hcalls, if_pos rfl]
        exact hnew
    · exact hkeeps _ (h.begun q (List.mem_append_right _ hq))
  · obtain ⟨hlast, hw⟩ := hj
    have hlast' : s.shared.latest = some j := hlatest ▸ hlast
    rw [hcalls] at hw ⊢
    by_cases hjk : j = k
    · subst hjk
      rw [if_pos rfl] at hw ⊢
      exact hself hw (hpc ▸ h.orderly j ⟨hlast', hpc ▸ hwaits hw⟩)
    · rw [if_neg hjk] at hw ⊢
      exact hother j hjk (h.orderly j ⟨hlast', hw⟩)
  · rw [hcalls] at hj
    by_cases hjk : j = k
    · subst hjk
      rw [if_pos rfl] at hj
      have hset := (hat peers hj).2
      refine ⟨fun q hq => ?_, hset.ended, hset.peers⟩
      rcases hreqs q hq with hold | ⟨-, -, hnot⟩
      · exact hset.requests q hold
      · rw [hj] at hnot
        cases hnot
    · rw [if_neg hjk] at hj
      have hset := h.settled j peers hj
      refine ⟨fun q hq => ?_, hset.ended, hset.peers⟩
      rcases hreqs q hq with hold | ⟨hk, -⟩
      · exact hset.requests q hold
      · exact fun heq => hjk (heq.symm.trans hk)
  · exact hkept j (hneeds j hj) (h.kept j (hneeds j hj))

/-- A call that changes nothing but its own place. -/
theorem InOrder.move (h : InOrder s) (hpc : s.shared.call k = pc)
    (hfresh : pc.fresh = false → pc'.fresh = false)
    (hwaits : pc'.waits = true → pc.waits = true) (hat : pc'.atUnpack = false)
    (hsame : pc'.waits = true →
      pc'.rest = pc.rest ∧ pc'.unasked = pc.unasked ∧ pc'.peers = pc.peers) :
    InOrder ⟨s.shared.setCall k pc', s.tasks⟩ := by
  refine h.setCall s.shared hpc rfl rfl hfresh hwaits (fun peers hp => ?_) (fun q hq => Or.inl hq)
    (fun hw horder => ?_) (fun _ _ horder => horder) fun _ _ hkept => hkept
  · rw [hp] at hat
    cases hat
  · obtain ⟨hrest, hunasked, hpeers⟩ := hsame hw
    exact horder.move hrest hunasked hpeers

theorem InOrder.finish (h : InOrder s) (k : ℕ) : InOrder ⟨s.shared.finish k, s.tasks⟩ :=
  h.setCall s.shared.setFinished rfl rfl rfl (fun _ => rfl) nofun nofun
    (fun _ hq => Or.inl hq) nofun (fun _ _ horder => horder) fun _ _ hkept => hkept

/-- A new restore starts from an empty map. -/
theorem InOrder.initializeStatic (h : InOrder s) (hfresh : (s.shared.call k).fresh = true)
    (backupRunning : Bool) :
    InOrder ⟨s.shared.initializeStatic k backupRunning, s.tasks⟩ := by
  obtain ⟨hreqs, htasks⟩ := h.none_of_fresh hfresh
  have hcalls (j : ℕ) : (s.shared.initializeStatic k backupRunning).call j =
      if j = k then (if backupRunning then .returned else .requesting) else s.shared.call j := by
    simp only [Shared.initializeStatic, Shared.setCall, Function.update_apply]
  have hkept : Kept k s.shared.disk s.tasks := Or.inr fun x hx hk => absurd hk (htasks x hx)
  refine ⟨h.sound, fun q hq => ?_, fun j hj => ?_, fun j peers hj => ?_, fun j hj => ?_⟩
  · have hne : q.2 ≠ k := by
      rintro rfl
      exact absurd (h.begun q hq) (by simp [hfresh])
    rw [hcalls, if_neg hne]
    exact h.begun q hq
  · obtain ⟨hlast, hw⟩ := hj
    obtain rfl : k = j := Option.some.inj hlast
    rw [hcalls, if_pos rfl] at hw ⊢
    cases backupRunning with
    | true => cases hw
    | false => exact orderly_fresh hreqs htasks List.nodup_nil rfl (by simp [Progress.peers])
  · rw [hcalls] at hj
    by_cases hjk : j = k
    · rw [if_pos hjk] at hj
      cases backupRunning <;> cases hj
    · rw [if_neg hjk] at hj
      exact h.settled j peers hj
  · by_cases hjk : j = k
    · exact hjk ▸ hkept
    · rcases hj with ⟨hlast, -⟩ | ha
      · exact absurd (Option.some.inj hlast).symm hjk
      · rw [hcalls, if_neg hjk] at ha
        exact h.kept j (Or.inr ha)

/-- The list of the server has come. -/
theorem InOrder.list (h : InOrder s) (hpc : s.shared.call k = .requesting)
    {peers : List ClientId} (hnodup : peers.Nodup) :
    InOrder ⟨s.shared.setCall k (.contacting peers peers), s.tasks⟩ := by
  obtain ⟨hreqs, htasks⟩ := h.none_of_fresh (k := k) (by simp [hpc, Progress.fresh])
  refine h.setCall s.shared hpc rfl rfl (fun _ => rfl) (fun _ => rfl) nofun
    (fun q hq => Or.inl hq) (fun _ _ => ?_) (fun _ _ horder => horder) fun _ _ hkept => hkept
  exact orderly_fresh hreqs htasks hnodup rfl fun p hp => hp

/-- A peer is added by its own call, and set back for any other one. -/
theorem InOrder.addPeer (h : InOrder s) {peers rest : List ClientId} {peer : ClientId}
    (hpc : s.shared.call k = .contacting peers (peer :: rest)) :
    InOrder ⟨(s.shared.setStatus peer false).setCall k (.added peers peer rest), s.tasks⟩ :=
  h.setCall (s.shared.setStatus peer false) hpc rfl rfl (fun _ => rfl) (fun _ => rfl) nofun
    (fun _ hq => Or.inl hq) (fun _ horder => horder.setBack.add incomplete_insertPeer)
    (fun _ _ horder => horder.setBack) fun _ _ hkept => hkept

theorem InOrder.addRequest (h : InOrder s) {peers rest : List ClientId} {peer : ClientId}
    (hpc : s.shared.call k = .added peers peer rest) :
    InOrder ⟨(s.shared.addRequest peer k).setCall k (.registered peers rest), s.tasks⟩ := by
  unfold Shared.addRequest
  split
  · exact h.setCall s.shared hpc rfl rfl (fun _ => rfl) (fun _ => rfl) nofun (fun q hq => Or.inl hq)
      (fun _ horder => horder.passOver) (fun _ _ horder => horder) fun _ _ hkept => hkept
  · refine h.setCall { s.shared with requests := s.shared.requests ++ [(peer, k)] } hpc rfl rfl
      (fun _ => rfl) (fun _ => rfl) nofun (fun q hq => ?_) (fun _ horder => horder.register)
      (fun j hjk horder => horder.withdraw ?_) fun _ _ hkept => hkept
    · rcases List.mem_append.mp hq with hq | hq
      · exact Or.inl hq
      · exact Or.inr ⟨congrArg Prod.snd (List.mem_singleton.mp hq), rfl, rfl⟩
    · simp only [ofRestore_append, ofRestore_ne hjk.symm, List.append_nil]
      exact List.Sublist.refl _

/-- The restore that finds all peers completed has nothing left to wait for. -/
theorem InOrder.complete (h : InOrder s) {peers : List ClientId}
    (hpc : s.shared.call k = .checked peers)
    (hall : s.shared.restore.allPeersCompleted = true) (hlatest : s.shared.latest = some k) :
    InOrder ⟨s.shared.setCall k (.completed peers), s.tasks⟩ := by
  have hwaiting : s.shared.Waiting k := ⟨hlatest, by simp [hpc, Progress.waits]⟩
  refine h.setCall s.shared hpc rfl rfl (fun _ => rfl) nofun (fun peers' hp => ?_)
    (fun q hq => Or.inl hq) nofun (fun _ _ horder => horder) fun _ _ hkept => hkept
  obtain rfl := Progress.completed.inj hp
  exact ⟨Or.inl hwaiting, (hpc ▸ h.orderly k hwaiting).settled hall⟩

/-- The folder is removed while no restore needs what is in it. -/
theorem InOrder.remove (h : InOrder s) (hpc : s.shared.call k = .removing)
    (hok : ∀ y ∈ s.tasks, s.shared.Needs y.restore → y.saved = []) :
    InOrder ⟨{ s.shared.finish k with disk := .empty }, s.tasks⟩ := by
  refine h.setCall { s.shared.setFinished with disk := .empty } hpc rfl rfl
    (fun _ => rfl) nofun nofun (fun q hq => Or.inl hq) nofun (fun _ _ horder => horder)
    fun j hj _ => Or.inr fun x hx hxj f hf => ?_
  rw [hok x hx (hxj ▸ hj)] at hf
  cases hf

theorem inOrder_callStep {a : Action} {sh : Shared} (h : InOrder s) (hok : InTurn s a)
    (hst : callStep s.shared a = some sh) : InOrder ⟨sh, s.tasks⟩ := by
  cases called_of_callStep hst with
  | finishes _ k => exact h.finish k
  | locks k _ next hpc hnext =>
    rcases hnext with rfl | rfl <;>
      exact h.move hpc (by simp [Progress.fresh]) nofun rfl fun _ => ⟨rfl, rfl, rfl⟩
  | initializes _ k backupRunning hpc =>
    refine h.initializeStatic ?_ backupRunning
    rcases hpc with hpc | hpc <;> rw [hpc] <;> rfl
  | lists k peers hpc hnodup => exact h.list hpc hnodup
  | addsPeer k peers rest peer hpc => exact h.addPeer hpc
  | registers k peers rest peer hpc => exact h.addRequest hpc
  | contacts k peers rest hpc =>
    exact h.move hpc (fun _ => rfl) (fun _ => rfl) rfl fun _ => ⟨rfl, rfl, rfl⟩
  | checks k peers hpc | waits k peers hpc =>
    exact h.move hpc (fun _ => rfl) (fun _ => rfl) rfl fun _ => ⟨rfl, rfl, rfl⟩
  | completes k peers hpc hall => exact h.complete hpc hall (hok hall)
  | unpacks k peers hpc | unpacked k peers hpc => exact h.move hpc (fun _ => rfl) nofun rfl nofun
  | removesFile k info hpc =>
    exact { h with kept := fun j hj => (h.kept j hj).erase fun y hy hyj => hok y hy (hyj ▸ hj) }
  | removes k hpc => exact h.remove hpc (hok rfl)
  | drops peer =>
    refine ⟨h.sound, fun q hq => h.begun q ?_, fun j hj => ?_, fun j peers hj => ?_, h.kept⟩
    · exact (List.filter_sublist.append_right _).subset hq
    · exact (h.orderly j hj).withdraw (ofRestore_filter_sublist peer)
    · have hset := h.settled j peers hj
      exact ⟨fun q hq => hset.requests q (List.mem_of_mem_filter hq), hset.ended, hset.peers⟩
  | stores peer file => exact { h with }

end

/-! ## 4. Runs -/

section

variable {s s' : State} {k t : ℕ} {x x' : Session}

/-- A session moves on. -/
theorem InOrder.set (h : InOrder s) {sh : Shared} (ht : s.tasks[t]? = some x)
    (hkey : x'.key = x.key) (hsound : x'.Sound)
    (hended : x.phase = .ended false → x'.phase = .ended false)
    (hreqs : sh.requests = s.shared.requests) (hcall : sh.call = s.shared.call)
    (hlatest : sh.latest = s.shared.latest)
    (horderly : ∀ k, s.shared.Waiting k →
      Orderly k (s.shared.call k) s.shared.restore.peerRestoreStatus s.shared.requests
        (s.tasks.set t x') →
      Orderly k (s.shared.call k) sh.restore.peerRestoreStatus s.shared.requests
        (s.tasks.set t x'))
    (hkept : ∀ k, s.shared.Needs k → Kept k s.shared.disk s.tasks →
      Kept k sh.disk (s.tasks.set t x')) :
    InOrder ⟨sh, s.tasks.set t x'⟩ := by
  have hwaiting (j : ℕ) (hj : sh.Waiting j) : s.shared.Waiting j :=
    ⟨hlatest ▸ hj.1, hcall ▸ hj.2⟩
  refine ⟨Pool.forall_mem_set h.sound hsound, ?_, fun j hj => ?_, fun j peers hj => ?_,
    fun j hj => ?_⟩
  · rw [hreqs, hcall, Pool.map_set Session.key ht hkey]
    exact h.begun
  · rw [hreqs, hcall]
    exact horderly j (hwaiting j hj) ((h.orderly j (hwaiting j hj)).set ht hkey hended)
  · rw [hreqs]
    exact (h.settled j peers (hcall ▸ hj)).set ht hkey hended
  · have hneeds : s.shared.Needs j := hj.imp (hwaiting j) fun ha => hcall ▸ ha
    exact hkept j hneeds (h.kept j hneeds)

theorem inOrder_connect (h : InOrder s) {peer : ClientId} {j : ℕ}
    (hreq : (peer, j) ∈ s.shared.requests) :
    InOrder (Pool.spawn ⟨s.shared.removeRequest peer, s.tasks⟩ (.opened j peer)) where
  sound := Pool.forall_mem_spawn h.sound sound_opened
  begun q hq := by
    rcases List.mem_append.mp hq with hq | hq
    · exact h.begun q (List.mem_append_left _ (List.mem_of_mem_filter hq))
    · rw [Pool.spawn_tasks, List.map_append] at hq
      rcases List.mem_append.mp hq with hq | hq
      · exact h.begun q (List.mem_append_right _ hq)
      · exact List.mem_singleton.mp hq ▸ h.begun (peer, j) (List.mem_append_left _ hreq)
  orderly k hk := (h.orderly k hk).connect hreq
  settled k peers hk := (h.settled k peers hk).connect hreq
  kept k hk := (h.kept k hk).spawn rfl

theorem inOrder_sender (h : InOrder s) (ht : s.tasks[t]? = some x) (hsent : Sent x x') :
    InOrder ⟨s.shared, s.tasks.set t x'⟩ := by
  obtain ⟨hrestore, hpeer, hphase, hsaved⟩ := hsent.same
  have hkey : x'.key = x.key := by rw [Session.key, Session.key, hpeer, hrestore]
  exact h.set ht hkey (sound_sent (h.sound x (List.mem_of_getElem? ht)) hsent) (by simp [hphase])
    rfl rfl rfl (fun _ _ horder => horder)
    fun k _ hkept => hkept.set ht hkey hsaved (by simp [hphase])

theorem inOrder_receiver (h : InOrder s) {event : ReceiverEvent} {sh : Shared}
    (hok : InTurn s (.receiver t event)) (ht : s.tasks[t]? = some x)
    (hst : receiverStep event s.shared x = some (sh, x')) :
    InOrder ⟨sh, s.tasks.set t x'⟩ := by
  obtain ⟨hrestore, hpeer, hrecv⟩ := received_of_receiverStep hst
  have hkey : x'.key = x.key := by rw [Session.key, Session.key, hpeer, hrestore]
  have hsound : x'.Sound := sound_receiverStep (h.sound x (List.mem_of_getElem? ht)) hst
  have hactive (ha : x.phase.active = true) :
      x.phase ≠ .ended false ∧ x.phase.failed = false := by
    cases hphase : x.phase <;> simp_all [Phase.active, Phase.failed]
  cases hrecv with
  | moves _ _ ha hne hsaved =>
    obtain ⟨hnot, hfailed⟩ := hactive ha
    exact h.set ht hkey hsound (fun he => absurd he hnot) rfl rfl rfl (fun _ _ horder => horder)
      fun k _ hkept => hkept.set ht hkey hsaved fun hf => absurd hf (by simp [hfailed])
  | saves info data _ hphase hphase' hsaved =>
    exact h.set ht hkey hsound (by simp [hphase]) rfl rfl rfl (fun _ _ horder => horder)
      fun k _ hkept => hkept.save ht hkey hsaved (by simp [hphase, Phase.failed])
  | tears info data n _ hphase hphase' hsaved =>
    refine h.set ht hkey hsound (by simp [hphase]) rfl rfl rfl (fun _ _ horder => horder)
      fun k hk hkept => ?_
    by_cases hx : x.restore = k
    · have hmem := List.mem_set (List.getElem?_eq_some_iff.mp ht).1 x'
      exact Or.inl ⟨x', hmem, hrestore.trans hx, by simp [hphase', Phase.failed]⟩
    · refine hkept.tear ht hkey hsaved (by simp [hphase, Phase.failed]) fun y hy hyk hmem => ?_
      exact hx ((hok x info data y ht hphase hy (hyk ▸ hk) hmem).trans hyk)
  | completes _ hphase hphase' hsaved =>
    refine h.set ht hkey hsound (by simp [hphase]) rfl rfl rfl (fun k hk horder => ?_)
      fun k _ hkept => hkept.set ht hkey hsaved (by simp [hphase, Phase.failed])
    have ht' : (s.tasks.set t x')[t]? = some x' :=
      List.getElem?_set_self (List.getElem?_eq_some_iff.mp ht).1
    by_cases hx : x.restore = k
    · have hdone := horder.complete ht' (hrestore.trans hx) hphase'
      rw [hpeer] at hdone
      exact hdone
    · exact horder.completeOther fun hmem => hx (hok x k ht hphase hmem hk)
  | fails _ hphase hphase' hsaved =>
    exact h.set ht hkey hsound (by simp [hphase]) rfl rfl rfl (fun _ _ horder => horder)
      fun k _ hkept => hkept.set ht hkey hsaved (by simp [hphase', Phase.failed])

theorem inOrder_step {a : Action} (h : InOrder s) (hok : InTurn s a) (hst : step s a = some s') :
    InOrder s' := by
  have hcall (a : Action) (hok : InTurn s a)
      (hst : (callStep s.shared a).map (fun sh => (⟨sh, s.tasks⟩ : State)) = some s') :
      InOrder s' := by
    obtain ⟨sh, hsh, rfl⟩ := Option.map_eq_some_iff.mp hst
    exact inOrder_callStep h hok hsh
  cases a with
  | connect peer =>
    obtain ⟨⟨p, j⟩, hfind, rfl⟩ := Option.map_eq_some_iff.mp hst
    obtain rfl : p = peer := by simpa using List.find?_some hfind
    exact inOrder_connect h (List.mem_of_find?_eq_some hfind)
  | sender t event =>
    rw [step] at hst
    obtain ⟨x, sh, x', ht, hx, rfl⟩ := Pool.advance_eq_some.mp hst
    obtain ⟨y, hy, heq⟩ := Option.map_eq_some_iff.mp hx
    obtain ⟨rfl, rfl⟩ := Prod.mk.inj heq
    exact inOrder_sender h ht (sent_of_senderStep hy)
  | receiver t event =>
    obtain ⟨x, sh, x', ht, hx, rfl⟩ := Pool.advance_eq_some.mp hst
    exact inOrder_receiver h hok ht hx
  | _ => exact hcall _ hok hst

/-- What has been delivered to a restore that is about to unpack. -/
theorem InOrder.delivered (h : InOrder s) {peers : List ClientId}
    (hpc : s.shared.call k = .completed peers) {peer : ClientId} (hpeer : peer ∈ peers) :
    Delivered s k peer := by
  have hset := h.settled k peers hpc
  have hwhole := (h.kept k (Or.inr (by simp [hpc, Progress.atUnpack]))).resolve_left <| by
    rintro ⟨z, hz, hzk, hfailed⟩
    simp [hset.ended z hz hzk, Phase.failed] at hfailed
  obtain ⟨x, hx, hxk, hxp⟩ := hset.peers peer hpeer
  have hended := hset.ended x hx hxk
  obtain ⟨-, files, hfiles, hsaved⟩ := (h.sound x hx).completed (Or.inr hended)
  exact ⟨x, hx, hxk, hxp, hended, files, hfiles, fun f hf =>
    ⟨hsaved f hf, hwhole x hx hxk f (hsaved f hf)⟩⟩

/-- In every run whose steps are in turn, a restore that gets to `unpack` has from each peer in the
server's list all that the peer had stored. -/
theorem unpacks_complete {left : Disk} {stores : ClientId → List (FileInfo × Bytes)}
    {peers : List ClientId} (h : Transition.Reach step InTurn (start left stores) s)
    (hst : step s (.backupPath k true) = some s')
    (hunpack : s'.shared.call k = .unpacking peers) :
    ∀ peer ∈ peers, Delivered s' k peer := by
  have horder : InOrder s :=
    h.invariant inOrder_start fun _ _ _ hi hok hst => inOrder_step hi hok hst
  obtain ⟨sh, hsh, rfl⟩ := Option.map_eq_some_iff.mp hst
  simp only [callStep] at hsh
  split at hsh
  · rename_i peers' hpc
    obtain rfl := Option.some.inj hsh
    obtain rfl : peers' = peers := by simpa [Shared.setCall] using hunpack
    exact fun peer hpeer => horder.delivered hpc hpeer
  · cases hsh

/-- A check that is enough for a step to be in turn. -/
def inTurn (s : State) : Action → Bool
  | .receiver t .finish => s.tasks[t]?.all fun x =>
    x.phase = .streamed false → (x.peer, false) ∈ s.shared.restore.peerRestoreStatus →
      s.shared.latest = some x.restore
  | .receiver _ (.save (.writeFails _)) => false
  | .checkPeers k => s.shared.latest = some k
  | .removeFile _ _ => false
  | .removed _ ok => !ok
  | _ => true

theorem inTurn_ok (s : State) (a : Action) (h : inTurn s a = true) : InTurn s a := by
  unfold InTurn
  split
  · intro x k hx hphase hmem hwaiting
    rw [inTurn, hx] at h
    exact Option.some.inj ((of_decide_eq_true h hphase hmem).symm.trans hwaiting.1)
  · simp [inTurn] at h
  · exact fun _ => by simpa [inTurn] using h
  · simp [inTurn] at h
  · rename_i k ok
    rintro rfl
    simp [inTurn] at h
  · trivial

/-- Peers of the runs. -/
def alice : ClientId := .fill 1

def bob : ClientId := .fill 2

/-- What Alice stores. -/
def packfile : FileInfo × Bytes := (.packfile (.fill 3), [1, 2])

def indexFile : FileInfo × Bytes := (.index 0, [4])

def storesOf (peer : ClientId) : List (FileInfo × Bytes) :=
  if peer = alice then [packfile, indexFile] else [(.index 1, [5])]

/-- A restore gets to its waiting loop. -/
def ask (k : ℕ) (peers : List ClientId) : List Action :=
  .listed k (some peers) ::
    peers.flatMap fun peer => [.addPeer k, .addRequest k true, .connectionBegin k true,
      .connect peer]

def beginSession (t : ℕ) (files : List (FileInfo × Bytes)) : List Action :=
  [.receiver t (.create true), .sender t (.begin files)]

/-- It goes on to its end. -/
def deliverAll (t : ℕ) (files : List (FileInfo × Bytes)) : List Action :=
  (files.flatMap fun _ => [.sender t .send, .receiver t .deliver, .receiver t (.save .ok),
    .receiver t (.acknowledge true), .sender t .acknowledged]) ++
  [.sender t .close, .receiver t .close, .receiver t .finish]

/-- Its connection is lost. -/
def breakSession (t : ℕ) : List Action :=
  [.sender t .fail, .receiver t .breaks, .receiver t .finish]

/-- A restore from Alice and Bob fails, and the next one gets all files. -/
def secondRestore : List Action :=
  .start 0 false :: ask 0 [alice, bob] ++ beginSession 0 (storesOf alice) ++ breakSession 0 ++
    [.checkRunning 0, .start 1 false, .locked 1 false] ++ ask 1 [alice, bob] ++
    beginSession 2 (storesOf alice) ++ beginSession 3 (storesOf bob) ++
    deliverAll 2 (storesOf alice) ++ deliverAll 3 (storesOf bob) ++
    [.checkRunning 1, .checkPeers 1]

theorem unpacks_complete_second : ∃ s s',
    Transition.runWhen step inTurn (start .empty storesOf) secondRestore = some s ∧
    step s (.backupPath 1 true) = some s' ∧ ∀ peer ∈ [alice, bob], Delivered s' 1 peer := by
  have hrun : ∃ s, Transition.runWhen step inTurn (start .empty storesOf) secondRestore = some s ∧
      ∃ s', step s (.backupPath 1 true) = some s' ∧
        s'.shared.call 1 = .unpacking [alice, bob] := by
    decide +kernel
  obtain ⟨s, hs, s', hst, hunpack⟩ := hrun
  exact ⟨s, s', hs, hst, unpacks_complete (Transition.reach_of_runWhen inTurn_ok hs) hst hunpack⟩

/-- Alice's session fails, and another restore is asked for before the first one looks at the flag
again. -/
def restartInLoop : List Action :=
  .start 0 false :: ask 0 [alice] ++ beginSession 0 (storesOf alice) ++ breakSession 0 ++
    [.start 1 false, .locked 1 false, .checkRunning 0, .checkPeers 0]

/-- It finds the flag set and the map empty, and unpacks an empty folder. -/
theorem unpacks_nothing : ∃ s s',
    Transition.run step (start .empty storesOf) restartInLoop = some s ∧
    step s (.backupPath 0 true) = some s' ∧ s'.shared.call 0 = .unpacking [alice] ∧
    s'.tasks.head?.bind Session.stored = some (storesOf alice) ∧
    s'.shared.disk.read packfile.1 = none ∧ ¬ ∀ peer ∈ [alice], Delivered s' 0 peer := by
  have hrun : ∃ s, Transition.run step (start .empty storesOf) restartInLoop = some s ∧
      ∃ s', step s (.backupPath 0 true) = some s' ∧ s'.shared.call 0 = .unpacking [alice] ∧
        s'.tasks.head?.bind Session.stored = some (storesOf alice) ∧
        s'.shared.disk.read packfile.1 = none ∧ ∀ x ∈ s'.tasks, x.phase ≠ .ended false := by
    decide +kernel
  obtain ⟨s, hs, s', hst, hunpack, hstored, hread, hnone⟩ := hrun
  refine ⟨s, s', hs, hst, hunpack, hstored, hread, fun h => ?_⟩
  obtain ⟨x, hx, -, -, hended, -⟩ := h alice (by simp)
  exact hnone x hx hended

/-- A session that is left over completes Alice for the next restore, which has a session of its own
with her and unpacks without the file that she has stored since. -/
example : ∃ s, Transition.run step (start .empty storesOf)
    (.start 0 false :: ask 0 [alice, bob] ++ beginSession 0 (storesOf alice) ++
      beginSession 1 (storesOf bob) ++ breakSession 1 ++ [.checkRunning 0,
      .store alice (.index 2, [6]), .start 1 false, .locked 1 false] ++ ask 1 [alice] ++
      beginSession 2 (storesOf alice ++ [(.index 2, [6])]) ++ deliverAll 0 (storesOf alice) ++
      [.checkRunning 1, .checkPeers 1, .backupPath 1 true]) = some s ∧
    s.shared.call 1 = .unpacking [alice] ∧ s.shared.disk.read (.index 2) = none := by
  decide +kernel

end

end RestoreRuns

end Backuwup.Client
