/-
# Storing the files of peers (`received_files_writer.rs`)

A client keeps the files of each peer in a folder of its own (`PeerFolders.lean`).  Any number of
sessions of any peers save files at once; each is cut at its awaits and at its calls of the file
system, as in `ReceivedFiles.lean`, whose sessions are those of one peer with its files listed.

* `laidOut_step`: whatever happens, every file has the path of a file of a peer;
* `kept_step`: what is on disk of a peer is what was accepted from it and what is being saved, if
  every file is written where nothing has appeared since `try_exists`, and `save_file` does not fail
  once it has begun to write;
* `seen_of_reach`: what the client does with one peer is a run of the model of that peer.
-/
import Backuwup.Client.NetP2p.PeerFolders

namespace Backuwup.Client

open Receiving (Phase Event)

/-! ## 1. Receiving -/

namespace Keeper

/-- What the sessions of all peers share. -/
structure Store where
  dest : Dest
  peers : Peers
  /-- the peers for which a `PeerDataReceiver` has been made -/
  receivers : List ClientId
  /-- the files for which `save_file` has returned `Ok` -/
  accepted : List (ClientId × FileInfo × Bytes)

/-- The row of the peer says that it may send. -/
def Store.allows (store : Store) (peer : ClientId) : Bool :=
  (store.peers.getPeerInfo peer).any isPeerAllowedToSendData

def sessionStep (key : FixedBytes 4) (peer : ClientId) (event : Event) (store : Store)
    (s : Receiving.Session) : Option (Store × Receiving.Session) :=
  match event, s.phase with
  | .accept ok, .opened =>
    if ok = true ∧ store.allows peer = true then
      match createFolders (peerFolder peer) store.dest with
      | some d => some ({ store with dest := d, receivers := peer :: store.receivers },
          { s with phase := .reading })
      | none => some (store, { s with phase := .ended true })
    else some (store, { s with phase := .ended true })
  | .deliver info data, .reading =>
    if data.length ≤ maxEncapsulatedBackupChunkSize then
      some (store, { s with phase := .received info data })
    else none
  | .invalid, .reading => some (store, { s with phase := .ended true })
  | .close, .reading => some (store, { s with phase := .ended false })
  | .tryExists ok, .received info data =>
    match createSubfolder (peerFolder peer) info store.dest with
    | some d => some ({ store with dest := d },
        { s with phase :=
          if ok = true ∧ d.nodeAt (filePath (peerFolder peer) info) = none then .absent info data
          else .ended true })
    | none => some (store, { s with phase := .ended true })
  | .checkPeer ok, .absent info data =>
    some (store, { s with phase :=
      if ok = true ∧ store.allows peer = true then .allowed info data else .ended true })
  | .write .ok, .allowed info data =>
    match store.dest.createFile (filePath (peerFolder peer) info) (obfuscateDataImpl key data) with
    | some d => some ({ store with dest := d }, { s with phase := .written info data })
    | none => some (store, { s with phase := .ended true })
  | .write .createFails, .allowed _ _ => some (store, { s with phase := .ended true })
  | .write (.writeFails n), .allowed info data =>
    match store.dest.createFile (filePath (peerFolder peer) info)
        ((obfuscateDataImpl key data).take n) with
    | some d => some ({ store with dest := d }, { s with phase := .ended true })
    | none => some (store, { s with phase := .ended true })
  | .count true, .written info data =>
    some ({ store with
        peers := store.peers.peerIncrementReceived peer data.length
        accepted := store.accepted ++ [(peer, info, data)] },
      { s with phase := .saved info })
  | .count false, .written _ _ => some (store, { s with phase := .ended true })
  | .acknowledge ok, .saved info =>
    some (store, ⟨if ok then .reading else .ended true, s.acknowledged ++ [info]⟩)
  | _, _ => none

end Keeper

/-- A client that keeps files of peers, with the sessions of each. -/
structure Keeper where
  store : Keeper.Store
  sessions : ClientId → List Receiving.Session

namespace Keeper

def start (d : Dest) : Keeper := ⟨⟨d, .empty, [], []⟩, fun _ => []⟩

inductive Action
  /-- storage is matched with a peer -/
  | matched (peer : ClientId) (negotiated : ℕ)
  /-- the client sends to a peer itself -/
  | transmitted (peer : ClientId) (amount : ℕ)
  | connect (peer : ClientId)
  | session (peer : ClientId) (t : ℕ) (event : Event)
deriving DecidableEq

def step (key : FixedBytes 4) (s : Keeper) : Action → Option Keeper
  | .matched peer negotiated =>
    some { s with store := { s.store with
      peers := s.store.peers.addOrIncrementPeer peer negotiated } }
  | .transmitted peer amount =>
    some { s with store := { s.store with
      peers := s.store.peers.peerIncrementTransmitted peer amount } }
  | .connect peer =>
    some { s with sessions :=
      Function.update s.sessions peer (s.sessions peer ++ [⟨.opened, []⟩]) }
  | .session peer t event =>
    (Pool.advance (sessionStep key peer event) t ⟨s.store, s.sessions peer⟩).map fun p =>
      ⟨p.shared, Function.update s.sessions peer p.tasks⟩

/-- The files that were accepted from a peer. -/
def Store.acceptedFrom (store : Store) (peer : ClientId) : List (FileInfo × Bytes) :=
  (store.accepted.filter fun x => x.1 = peer).map Prod.snd

/-- The file that a session has written and not yet counted. -/
def writing (s : Receiving.Session) : Option (FileInfo × Bytes) :=
  match s.phase with
  | .written info data => some (info, data)
  | _ => none

/-- What a peer has on disk: the files that were accepted, and those of calls of `save_file` that
have not returned. -/
def held (s : Keeper) (peer : ClientId) : List (FileInfo × Bytes) :=
  s.store.acceptedFrom peer ++ (s.sessions peer).filterMap writing

/-- No call of `save_file` for the peer is between its write and its return. -/
def Idle (s : Keeper) (peer : ClientId) : Prop :=
  ∀ session ∈ s.sessions peer, writing session = none

/-- A file is written where nothing has appeared since `try_exists`, and once it is being written
nothing fails. -/
def Undisturbed (s : Keeper) : Action → Prop
  | .session peer t (.write .ok) =>
    ∀ session info data, (s.sessions peer)[t]? = some session →
      session.phase = .allowed info data →
        s.store.dest.nodeAt (filePath (peerFolder peer) info) = none
  | .session _ _ (.write (.writeFails _)) => False
  | .session _ _ (.count ok) => ok = true
  | _ => True

end Keeper

/-! ## 2. What a session does -/

namespace Keeper

/-- What an event does to the data directory, and to what the session is writing. -/
inductive Stepped (key : FixedBytes 4) (peer : ClientId) (store : Store) (s : Receiving.Session) :
    Event → Store → Receiving.Session → Prop
  /-- nothing has changed on disk, and nothing has been written -/
  | stands (event : Event) (s' : Receiving.Session) : writing s = none → writing s' = none →
      Stepped key peer store s event store s'
  | admits (event : Event) (d : Dest) (s' : Receiving.Session) :
      createFolders (peerFolder peer) store.dest = some d → writing s = none → writing s' = none →
      Stepped key peer store s event
        { store with dest := d, receivers := peer :: store.receivers } s'
  | looks (event : Event) (info : FileInfo) (d : Dest) (s' : Receiving.Session) :
      createSubfolder (peerFolder peer) info store.dest = some d → writing s = none →
      writing s' = none → Stepped key peer store s event { store with dest := d } s'
  | writes (info : FileInfo) (data : Bytes) (d : Dest) (s' : Receiving.Session) :
      s.phase = .allowed info data →
      store.dest.createFile (filePath (peerFolder peer) info) (obfuscateDataImpl key data)
        = some d → writing s' = some (info, data) →
      Stepped key peer store s (.write .ok) { store with dest := d } s'
  | tears (info : FileInfo) (data : Bytes) (n : ℕ) (d : Dest) (s' : Receiving.Session) :
      s.phase = .allowed info data →
      store.dest.createFile (filePath (peerFolder peer) info) ((obfuscateDataImpl key data).take n)
        = some d → writing s' = none →
      Stepped key peer store s (.write (.writeFails n)) { store with dest := d } s'
  | counts (info : FileInfo) (data : Bytes) (s' : Receiving.Session) :
      writing s = some (info, data) → writing s' = none →
      Stepped key peer store s (.count true)
        { store with
          peers := store.peers.peerIncrementReceived peer data.length
          accepted := store.accepted ++ [(peer, info, data)] } s'
  /-- the file stays, and `save_file` returns an error -/
  | forgets (s' : Receiving.Session) : writing s' = none →
      Stepped key peer store s (.count false) store s'

section

variable {key : FixedBytes 4} {peer : ClientId} {event : Event} {store store' : Store}
  {session session' : Receiving.Session}

theorem stepped_of_sessionStep
    (h : sessionStep key peer event store session = some (store', session')) :
    Stepped key peer store session event store' session' := by
  obtain ⟨phase, acked⟩ := session
  cases event with
  | accept ok =>
    cases phase <;> simp only [sessionStep, reduceCtorEq] at h
    split at h
    · split at h
      · rename_i d hd
        obtain ⟨rfl, rfl⟩ := Prod.mk.inj (Option.some.inj h)
        exact .admits _ d _ hd rfl rfl
      · obtain ⟨rfl, rfl⟩ := Prod.mk.inj (Option.some.inj h)
        exact .stands _ _ rfl rfl
    · obtain ⟨rfl, rfl⟩ := Prod.mk.inj (Option.some.inj h)
      exact .stands _ _ rfl rfl
  | deliver info data =>
    cases phase <;> simp only [sessionStep, reduceCtorEq] at h
    obtain ⟨-, h⟩ := Option.ite_none_right_eq_some.mp h
    obtain ⟨rfl, rfl⟩ := Prod.mk.inj (Option.some.inj h)
    exact .stands _ _ rfl rfl
  | invalid | close =>
    cases phase <;> simp only [sessionStep, reduceCtorEq, Option.some.injEq, Prod.mk.injEq] at h
    obtain ⟨rfl, rfl⟩ := h
    exact .stands _ _ rfl rfl
  | tryExists ok =>
    cases phase <;> simp only [sessionStep, reduceCtorEq] at h
    split at h
    · rename_i d hd
      obtain ⟨rfl, rfl⟩ := Prod.mk.inj (Option.some.inj h)
      refine .looks _ _ d _ hd rfl ?_
      unfold writing
      split
      · rename_i hphase
        split at hphase <;> cases hphase
      · rfl
    · obtain ⟨rfl, rfl⟩ := Prod.mk.inj (Option.some.inj h)
      exact .stands _ _ rfl rfl
  | checkPeer ok =>
    cases phase <;> simp only [sessionStep, reduceCtorEq, Option.some.injEq, Prod.mk.injEq] at h
    obtain ⟨rfl, rfl⟩ := h
    refine .stands _ _ rfl ?_
    split <;> rfl
  | write io =>
    cases io with
    | ok =>
      cases phase <;> simp only [sessionStep, reduceCtorEq] at h
      split at h
      · rename_i d hd
        obtain ⟨rfl, rfl⟩ := Prod.mk.inj (Option.some.inj h)
        exact .writes _ _ d _ rfl hd rfl
      · obtain ⟨rfl, rfl⟩ := Prod.mk.inj (Option.some.inj h)
        exact .stands _ _ rfl rfl
    | createFails =>
      cases phase <;> simp only [sessionStep, reduceCtorEq, Option.some.injEq, Prod.mk.injEq] at h
      obtain ⟨rfl, rfl⟩ := h
      exact .stands _ _ rfl rfl
    | writeFails n =>
      cases phase <;> simp only [sessionStep, reduceCtorEq] at h
      split at h
      · rename_i d hd
        obtain ⟨rfl, rfl⟩ := Prod.mk.inj (Option.some.inj h)
        exact .tears _ _ n d _ rfl hd rfl
      · obtain ⟨rfl, rfl⟩ := Prod.mk.inj (Option.some.inj h)
        exact .stands _ _ rfl rfl
  | count ok =>
    cases ok <;> cases phase <;>
      simp only [sessionStep, reduceCtorEq, Option.some.injEq, Prod.mk.injEq] at h
    · obtain ⟨rfl, rfl⟩ := h
      exact .forgets _ rfl
    · obtain ⟨rfl, rfl⟩ := h
      exact .counts _ _ _ rfl rfl
  | acknowledge ok =>
    cases phase <;> simp only [sessionStep, reduceCtorEq, Option.some.injEq, Prod.mk.injEq] at h
    obtain ⟨rfl, rfl⟩ := h
    refine .stands _ _ rfl ?_
    cases ok <;> rfl

end

/-! ## 3. What is on disk -/

/-- The folders exist, and every file below the folder of the peers has the path of a file of a
peer. -/
structure LaidOut (store : Store) : Prop where
  closed : store.dest.Closed
  folders : ∀ peer ∈ store.receivers,
    store.dest.nodeAt (indexFolder :: peerFolder peer) = some .dir ∧
    store.dest.nodeAt (packfileFolder :: peerFolder peer) = some .dir
  layout : ∀ p content,
    store.dest.nodeAt (p ++ receivedPackfilesFolder) = some (.file content) →
      ∃ peer info, p ++ receivedPackfilesFolder = filePath (peerFolder peer) info

/-- The files of the peers are these, obfuscated. -/
structure Kept (key : FixedBytes 4) (d : Dest) (held : ClientId → List (FileInfo × Bytes)) :
    Prop where
  files : ∀ peer info content, d.nodeAt (filePath (peerFolder peer) info) = some (.file content) ↔
    ∃ data, (info, data) ∈ held peer ∧ content = obfuscateDataImpl key data
  distinct : ∀ peer, ((held peer).map Prod.fst).Nodup

/-- No file of a peer is there yet. -/
def NothingReceived (d : Dest) : Prop :=
  ∀ p content, d.nodeAt (p ++ receivedPackfilesFolder) ≠ some (.file content)

section

variable {key : FixedBytes 4} {s s' : Keeper} {store store' : Store} {d d' : Dest}
  {peer : ClientId} {info : FileInfo} {data : Bytes} {a : Action}
  {held held' : ClientId → List (FileInfo × Bytes)}

theorem laidOut_start (h : d.Closed) (hnew : NothingReceived d) : LaidOut (start d).store :=
  ⟨h, by simp [start], fun p content hc => absurd hc (hnew p content)⟩

theorem kept_start (hnew : NothingReceived d) : Kept key d (start d).held := by
  refine ⟨fun peer info content => ?_, fun peer => List.nodup_nil⟩
  obtain ⟨p, hp⟩ := exists_filePath peer info
  rw [hp]
  exact iff_of_false (hnew p content) (by simp [Keeper.held, start, Store.acceptedFrom])

/-- Directories are created. -/
theorem LaidOut.sameFiles (h : LaidOut store) (hsame : SameFiles store.dest d) :
    LaidOut { store with dest := d } where
  closed := hsame.closed
  folders p hp := ⟨hsame.dirs _ (h.folders p hp).1, hsame.dirs _ (h.folders p hp).2⟩
  layout p content hc := h.layout p content ((hsame.files _ _).mp hc)

theorem LaidOut.createFolders (h : LaidOut store)
    (hd : Client.createFolders (peerFolder peer) store.dest = some d) :
    LaidOut { store with dest := d, receivers := peer :: store.receivers } := by
  obtain ⟨hsame, hfolders⟩ := createFolders_spec h.closed hd
  refine { h.sameFiles hsame with folders := fun p hp => ?_ }
  rcases List.mem_cons.mp hp with rfl | hp
  · exact hfolders
  · exact (h.sameFiles hsame).folders p hp

/-- A file is written for a peer. -/
theorem LaidOut.createFile (h : LaidOut store) {content : Bytes}
    (hd : store.dest.createFile (filePath (peerFolder peer) info) content = some d) :
    LaidOut { store with dest := d } := by
  have hnodes := Dest.nodeAt_of_createFile hd
  have hdir : ∀ q, store.dest.nodeAt q = some .dir → d.nodeAt q = some .dir := by
    intro q hq
    rw [hnodes, if_neg, hq]
    rintro rfl
    simp [Dest.createFile, hq] at hd
  obtain ⟨name, parent, hpath⟩ := exists_parent_filePath (peerFolder peer) info
  rw [hpath] at hd
  refine ⟨h.closed.of_createFile hd, fun p hp => ?_, fun p content' hc => ?_⟩
  · exact ⟨hdir _ (h.folders p hp).1, hdir _ (h.folders p hp).2⟩
  · by_cases hq : p ++ receivedPackfilesFolder = filePath (peerFolder peer) info
    · exact ⟨peer, info, hq⟩
    · exact h.layout p content' (((hnodes _).trans (if_neg hq)).symm.trans hc)

/-- Whatever happens, the layout is kept. -/
theorem laidOut_step (h : LaidOut s.store) (hstep : step key s a = some s') :
    LaidOut s'.store := by
  cases a with
  | matched | transmitted | connect =>
    obtain rfl := Option.some.inj hstep
    exact { h with }
  | session peer t event =>
    obtain ⟨p, hp, rfl⟩ := Option.map_eq_some_iff.mp hstep
    obtain ⟨session, store', session', -, hst, rfl⟩ := Pool.advance_eq_some.mp hp
    cases stepped_of_sessionStep hst with
    | stands | forgets => exact h
    | admits _ _ _ hd => exact h.createFolders hd
    | looks _ _ _ _ hd => exact h.sameFiles (sameFiles_createSubfolder h.closed hd)
    | writes _ _ _ _ _ hd => exact h.createFile hd
    | tears _ _ _ _ _ _ hd => exact h.createFile hd
    | counts => exact { h with }

theorem Kept.sameFiles (h : Kept key d held) (hsame : SameFiles d d') : Kept key d' held :=
  ⟨fun peer info content => (hsame.files _ _).trans (h.files peer info content), h.distinct⟩

theorem Kept.perm (h : Kept key d held) (hperm : ∀ peer, (held' peer).Perm (held peer)) :
    Kept key d held' := by
  refine ⟨fun peer info content => ?_, fun peer => ?_⟩
  · simp only [(hperm peer).mem_iff]
    exact h.files peer info content
  · exact ((hperm peer).map _).nodup_iff.mpr (h.distinct peer)

/-- A new file of a peer. -/
theorem Kept.write (h : Kept key d held)
    (hfree : d.nodeAt (filePath (peerFolder peer) info) = none)
    (hd : d.createFile (filePath (peerFolder peer) info) (obfuscateDataImpl key data) = some d')
    (hself : (held' peer).Perm ((info, data) :: held peer))
    (hothers : ∀ p, p ≠ peer → held' p = held p) : Kept key d' held' := by
  have hnodes := Dest.nodeAt_of_createFile hd
  have hnot : ∀ data', (info, data') ∉ held peer := by
    intro data' hmem
    rw [(h.files peer info _).mpr ⟨data', hmem, rfl⟩] at hfree
    cases hfree
  refine ⟨fun peer' info' content => ?_, fun peer' => ?_⟩
  · rw [hnodes]
    by_cases hpeer : peer' = peer
    · subst hpeer
      simp only [hself.mem_iff, List.mem_cons, or_and_right, exists_or]
      by_cases hinfo : info' = info
      · subst hinfo
        simp [hnot, eq_comm]
      · have hne : filePath (peerFolder peer') info' ≠ filePath (peerFolder peer') info :=
          fun heq => hinfo (filePath_inj rfl heq).2
        rw [if_neg hne, h.files]
        simp [hinfo]
    · have hne : filePath (peerFolder peer') info' ≠ filePath (peerFolder peer) info :=
        fun heq => hpeer (peerFolder_injective (filePath_inj (by simp [peerFolder]) heq).1)
      rw [if_neg hne, hothers peer' hpeer]
      exact h.files peer' info' content
  · by_cases hpeer : peer' = peer
    · subst hpeer
      rw [(hself.map Prod.fst).nodup_iff, List.map_cons, List.nodup_cons]
      refine ⟨fun hmem => ?_, h.distinct peer'⟩
      obtain ⟨⟨_, data'⟩, hx, rfl⟩ := List.mem_map.mp hmem
      exact hnot data' hx
    · rw [hothers peer' hpeer]
      exact h.distinct peer'

theorem acceptedFrom_append {x : FileInfo × Bytes}
    (h : store'.accepted = store.accepted ++ [(peer, x)]) (p : ClientId) :
    store'.acceptedFrom p = store.acceptedFrom p ++ if p = peer then [x] else [] := by
  unfold Store.acceptedFrom
  rw [h, List.filter_append, List.map_append]
  by_cases hp : p = peer
  · simp [hp]
  · simp [hp, Ne.symm hp]

/-- What a session writes or counts is what changes of what its peer has on disk. -/
theorem held_session {t : ℕ} {session : Receiving.Session}
    (ht : (s.sessions peer)[t]? = some session) (store' : Store) (session' : Receiving.Session) :
    ∃ others,
      (s.held peer).Perm (s.store.acceptedFrom peer ++ ((writing session).toList ++ others)) ∧
      (Keeper.held ⟨store', Function.update s.sessions peer ((s.sessions peer).set t session')⟩
          peer).Perm
        (store'.acceptedFrom peer ++ ((writing session').toList ++ others)) := by
  obtain ⟨others, hold, hnew⟩ := Pool.filterMap_set_perm writing ht session'
  refine ⟨others, hold.append_left _, ?_⟩
  simp only [Keeper.held, Function.update_self]
  exact hnew.append_left _

/-- When a session has written nothing new and counted nothing, all have the same files. -/
theorem held_same {t : ℕ} {session session' : Receiving.Session}
    (ht : (s.sessions peer)[t]? = some session) (haccepted : store'.accepted = s.store.accepted)
    (h : writing session = none) (h' : writing session' = none) (p : ClientId) :
    (Keeper.held ⟨store', Function.update s.sessions peer ((s.sessions peer).set t session')⟩
      p).Perm (s.held p) := by
  have hfrom : store'.acceptedFrom p = s.store.acceptedFrom p := by
    simp only [Store.acceptedFrom, haccepted]
  by_cases hp : p = peer
  · subst hp
    obtain ⟨others, hold, hnew⟩ := held_session ht store' session'
    rw [h] at hold
    rw [h', hfrom] at hnew
    exact hnew.trans hold.symm
  · simp only [Keeper.held, Function.update_of_ne hp, hfrom]
    exact .refl _

/-- A file that is counted changes hands. -/
theorem held_counted {t : ℕ} {session session' : Receiving.Session}
    (ht : (s.sessions peer)[t]? = some session)
    (haccepted : store'.accepted = s.store.accepted ++ [(peer, info, data)])
    (h : writing session = some (info, data)) (h' : writing session' = none) (p : ClientId) :
    (Keeper.held ⟨store', Function.update s.sessions peer ((s.sessions peer).set t session')⟩
      p).Perm (s.held p) := by
  have hfrom := acceptedFrom_append haccepted p
  by_cases hp : p = peer
  · subst hp
    obtain ⟨others, hold, hnew⟩ := held_session ht store' session'
    rw [h] at hold
    rw [h', hfrom, if_pos rfl, List.append_assoc] at hnew
    exact hnew.trans hold.symm
  · simp only [Keeper.held, Function.update_of_ne hp, hfrom, if_neg hp, List.append_nil]
    exact .refl _

theorem kept_step (hlaid : LaidOut s.store) (h : Kept key s.store.dest s.held)
    (ha : Undisturbed s a) (hstep : step key s a = some s') :
    Kept key s'.store.dest s'.held := by
  cases a with
  | matched | transmitted =>
    obtain rfl := Option.some.inj hstep
    exact h
  | connect peer =>
    obtain rfl := Option.some.inj hstep
    refine h.perm fun p => .of_eq ?_
    unfold Keeper.held
    by_cases hp : p = peer
    · subst hp
      simp [writing]
    · simp only [Function.update_of_ne hp]
  | session peer t event =>
    obtain ⟨p, hp, rfl⟩ := Option.map_eq_some_iff.mp hstep
    obtain ⟨session, store', session', ht, hst, rfl⟩ := Pool.advance_eq_some.mp hp
    cases stepped_of_sessionStep hst with
    | stands _ _ hwriting hwriting' => exact h.perm (held_same ht rfl hwriting hwriting')
    | admits _ _ _ hd hwriting hwriting' =>
      exact (h.sameFiles (createFolders_spec hlaid.closed hd).1).perm
        (held_same ht rfl hwriting hwriting')
    | looks _ _ _ _ hd hwriting hwriting' =>
      exact (h.sameFiles (sameFiles_createSubfolder hlaid.closed hd)).perm
        (held_same ht rfl hwriting hwriting')
    | writes info data d _ hphase hd hwriting' =>
      have hwriting : writing session = none := by simp only [writing, hphase]
      obtain ⟨others, hold, hnew⟩ := held_session ht { s.store with dest := d } session'
      rw [hwriting] at hold
      rw [hwriting'] at hnew
      refine h.write (ha session info data ht hphase) hd
        (hnew.trans (List.perm_middle.trans (hold.symm.cons _))) fun p hp => ?_
      simp only [Keeper.held, Function.update_of_ne hp]
      rfl
    | tears => exact ha.elim
    | counts info data _ hwriting hwriting' =>
      exact h.perm (held_counted ht rfl hwriting hwriting')
    | forgets => cases ha

end

end Keeper

/-! ## 4. The sessions of one peer -/

/-- The content of the file at a path. -/
def Dest.fileAt (d : Dest) (q : List FileName) : Option Bytes :=
  match d.nodeAt q with
  | some (.file content) => some content
  | _ => none

def PeerFiles.content (files : PeerFiles) (info : FileInfo) : Option Bytes :=
  (files.find? fun f => f.1 = info).map Prod.snd

theorem PeerFiles.content_write (files : PeerFiles) (info info' : FileInfo) (content : Bytes) :
    (files.write info content).content info'
      = if info' = info then some content else files.content info' := by
  unfold PeerFiles.content PeerFiles.write
  rw [List.find?_append, List.find?_filter]
  by_cases h : info' = info
  · have hnone : files.find? (fun f => decide (decide (f.1 ≠ info) = true ∧
        decide (f.1 = info') = true)) = none := by
      rw [List.find?_eq_none]
      intro f _
      simp only [decide_eq_true_eq]
      exact fun hf => hf.1 (hf.2.trans h)
    rw [hnone, if_pos h]
    simp [h]
  · have hothers : (fun f : FileInfo × Bytes =>
        decide (decide (f.1 ≠ info) = true ∧ decide (f.1 = info') = true))
          = fun f => decide (f.1 = info') := by
      funext f
      by_cases hf : f.1 = info'
      · simp [hf, h]
      · simp [hf]
    rw [hothers, if_neg h]
    simp [Ne.symm h]

theorem PeerFiles.has_iff_content (files : PeerFiles) (info : FileInfo) :
    files.has info = (files.content info).isSome := by
  rw [PeerFiles.has, PeerFiles.content, Option.isSome_map, Bool.eq_iff_iff, List.any_eq_true,
    List.find?_isSome]

theorem Dest.fileAt_eq_some {d : Dest} {q : List FileName} {content : Bytes} :
    d.fileAt q = some content ↔ d.nodeAt q = some (.file content) := by
  unfold Dest.fileAt
  split
  · rename_i content' hnode
    rw [hnode]
    simp
  · rename_i hnot
    exact iff_of_false (by simp) fun hnode => hnot content hnode

theorem SameFiles.fileAt {d d' : Dest} (h : SameFiles d d') (q : List FileName) :
    d'.fileAt q = d.fileAt q := by
  refine Option.ext fun content => ?_
  rw [Dest.fileAt_eq_some, Dest.fileAt_eq_some, h.files]

theorem Dest.fileAt_of_createFile {d d' : Dest} {p : List FileName} {content : Bytes}
    (hd : d.createFile p content = some d') (q : List FileName) :
    d'.fileAt q = if q = p then some content else d.fileAt q := by
  unfold Dest.fileAt
  rw [Dest.nodeAt_of_createFile hd]
  by_cases hq : q = p
  · simp [hq]
  · simp [hq]

namespace Keeper

/-- A model of one peer has its row, its files and its sessions. -/
structure Seen (peer : ClientId) (s : Keeper) (r : Receiving.State) : Prop where
  row : r.shared.peers.getPeerInfo peer = s.store.peers.getPeerInfo peer
  files : ∀ info, r.shared.files.content info
    = s.store.dest.fileAt (filePath (peerFolder peer) info)
  tasks : r.tasks = s.sessions peer

section

variable {key : FixedBytes 4} {peer : ClientId} {event : Event} {store store' : Store}
  {session session' : Receiving.Session} {rs : Receiving.Store}

/-- A store of the model of one peer has its row and its files. -/
structure Store.SeenIn (peer : ClientId) (store : Store) (rs : Receiving.Store) : Prop where
  row : rs.peers.getPeerInfo peer = store.peers.getPeerInfo peer
  files : ∀ info, rs.files.content info = store.dest.fileAt (filePath (peerFolder peer) info)

/-- In the model of the peer the session can come to the same phase. -/
def SeenStep (key : FixedBytes 4) (peer : ClientId) (rs : Receiving.Store)
    (session : Receiving.Session) (store' : Store) (session' : Receiving.Session) : Prop :=
  ∃ event rs', Receiving.sessionStep peer key event rs session = some (rs', session') ∧
    store'.SeenIn peer rs'

theorem Store.SeenIn.allows (h : store.SeenIn peer rs) : rs.allows peer = store.allows peer := by
  rw [Receiving.Store.allows, Keeper.Store.allows, h.row]

theorem Store.SeenIn.sameFiles (h : store.SeenIn peer rs) {d : Dest}
    (hsame : SameFiles store.dest d) (receivers : List ClientId) :
    Store.SeenIn peer { store with dest := d, receivers := receivers } rs :=
  ⟨h.row, fun info => by rw [h.files, hsame.fileAt]⟩

theorem Store.SeenIn.createFile (h : store.SeenIn peer rs) {info : FileInfo} {content : Bytes}
    {d : Dest} (hd : store.dest.createFile (filePath (peerFolder peer) info) content = some d) :
    Store.SeenIn peer { store with dest := d }
      { rs with files := rs.files.write info content } := by
  refine ⟨h.row, fun info' => ?_⟩
  rw [PeerFiles.content_write, Dest.fileAt_of_createFile hd, h.files]
  exact if_congr ⟨fun heq => by rw [heq], fun heq => (filePath_inj rfl heq).2⟩ rfl rfl

theorem Store.SeenIn.accept (h : store.SeenIn peer rs) (hclosed : store.dest.Closed) {ok : Bool}
    (hst : sessionStep key peer (.accept ok) store session = some (store', session')) :
    SeenStep key peer rs session store' session' := by
  obtain ⟨phase, acked⟩ := session
  cases phase <;> simp only [sessionStep, reduceCtorEq] at hst
  by_cases hok : ok = true ∧ store.allows peer = true
  · rw [if_pos hok] at hst
    split at hst
    · rename_i d hd
      obtain ⟨rfl, rfl⟩ := Prod.mk.inj (Option.some.inj hst)
      exact ⟨.accept ok, rs, by simp only [Receiving.sessionStep, h.allows, if_pos hok],
        h.sameFiles (createFolders_spec hclosed hd).1 _⟩
    · obtain ⟨rfl, rfl⟩ := Prod.mk.inj (Option.some.inj hst)
      exact ⟨.accept false, rs, rfl, h⟩
  · rw [if_neg hok] at hst
    obtain ⟨rfl, rfl⟩ := Prod.mk.inj (Option.some.inj hst)
    exact ⟨.accept ok, rs, by simp only [Receiving.sessionStep, h.allows, if_neg hok], h⟩

theorem Store.SeenIn.tryExists (h : store.SeenIn peer rs) (hclosed : store.dest.Closed) {ok : Bool}
    (hst : sessionStep key peer (.tryExists ok) store session = some (store', session')) :
    SeenStep key peer rs session store' session' := by
  obtain ⟨phase, acked⟩ := session
  cases phase with
  | received info data =>
    simp only [sessionStep] at hst
    split at hst
    · rename_i d hd
      obtain ⟨rfl, rfl⟩ := Prod.mk.inj (Option.some.inj hst)
      have hseen := h.sameFiles (sameFiles_createSubfolder hclosed hd) store.receivers
      by_cases hfree : ok = true ∧ d.nodeAt (filePath (peerFolder peer) info) = none
      · have hnone : rs.files.has info = false := by
          rw [PeerFiles.has_iff_content, hseen.files, Dest.fileAt, hfree.2]
          rfl
        refine ⟨.tryExists ok, rs, ?_, hseen⟩
        simp only [Receiving.sessionStep, hnone, if_pos hfree, and_true, if_pos hfree.1]
      · exact ⟨.tryExists false, rs, by simp [Receiving.sessionStep, hfree], hseen⟩
    · obtain ⟨rfl, rfl⟩ := Prod.mk.inj (Option.some.inj hst)
      exact ⟨.tryExists false, rs, by simp [Receiving.sessionStep], h⟩
  | _ => simp only [sessionStep, reduceCtorEq] at hst

theorem Store.SeenIn.write (h : store.SeenIn peer rs) {io : FileWrite}
    (hst : sessionStep key peer (.write io) store session = some (store', session')) :
    SeenStep key peer rs session store' session' := by
  obtain ⟨phase, acked⟩ := session
  cases io with
  | ok =>
    cases phase <;> simp only [sessionStep, reduceCtorEq] at hst
    split at hst
    · rename_i d hd
      obtain ⟨rfl, rfl⟩ := Prod.mk.inj (Option.some.inj hst)
      rw [obfuscateDataImpl_eq] at hd
      exact ⟨.write .ok, _, rfl, h.createFile hd⟩
    · obtain ⟨rfl, rfl⟩ := Prod.mk.inj (Option.some.inj hst)
      exact ⟨.write .createFails, rs, rfl, h⟩
  | createFails =>
    cases phase <;> simp only [sessionStep, reduceCtorEq, Option.some.injEq, Prod.mk.injEq] at hst
    obtain ⟨rfl, rfl⟩ := hst
    exact ⟨.write .createFails, rs, rfl, h⟩
  | writeFails n =>
    cases phase <;> simp only [sessionStep, reduceCtorEq] at hst
    split at hst
    · rename_i d hd
      obtain ⟨rfl, rfl⟩ := Prod.mk.inj (Option.some.inj hst)
      rw [obfuscateDataImpl_eq] at hd
      exact ⟨.write (.writeFails n), _, rfl, h.createFile hd⟩
    · obtain ⟨rfl, rfl⟩ := Prod.mk.inj (Option.some.inj hst)
      exact ⟨.write .createFails, rs, rfl, h⟩

/-- What a session of the peer does to its row and its files, it does in the model of the peer;
some call of the file system may fail there that is not on a file. -/
theorem sessionStep_seen (hclosed : store.dest.Closed) (h : store.SeenIn peer rs)
    (hst : sessionStep key peer event store session = some (store', session')) :
    SeenStep key peer rs session store' session' := by
  cases event with
  | accept ok => exact h.accept hclosed hst
  | tryExists ok => exact h.tryExists hclosed hst
  | write io => exact h.write hst
  | deliver info data =>
    obtain ⟨phase, acked⟩ := session
    cases phase <;> simp only [sessionStep, reduceCtorEq] at hst
    obtain ⟨hlen, hst⟩ := Option.ite_none_right_eq_some.mp hst
    obtain ⟨rfl, rfl⟩ := Prod.mk.inj (Option.some.inj hst)
    exact ⟨.deliver info data, rs, if_pos hlen, h⟩
  | checkPeer ok =>
    obtain ⟨phase, acked⟩ := session
    cases phase <;> simp only [sessionStep, reduceCtorEq, Option.some.injEq, Prod.mk.injEq] at hst
    obtain ⟨rfl, rfl⟩ := hst
    exact ⟨.checkPeer ok, rs, by simp only [Receiving.sessionStep, h.allows], h⟩
  | count ok =>
    obtain ⟨phase, acked⟩ := session
    cases ok <;> cases phase <;>
      simp only [sessionStep, reduceCtorEq, Option.some.injEq, Prod.mk.injEq] at hst
    · obtain ⟨rfl, rfl⟩ := hst
      exact ⟨.count false, rs, rfl, h⟩
    · obtain ⟨rfl, rfl⟩ := hst
      refine ⟨.count true, _, rfl, ?_, h.files⟩
      simp only [Peers.peerIncrementReceived, Peers.getPeerInfo_update, h.row]
  | invalid =>
    obtain ⟨phase, acked⟩ := session
    cases phase <;> simp only [sessionStep, reduceCtorEq, Option.some.injEq, Prod.mk.injEq] at hst
    obtain ⟨rfl, rfl⟩ := hst
    exact ⟨.invalid, rs, rfl, h⟩
  | close =>
    obtain ⟨phase, acked⟩ := session
    cases phase <;> simp only [sessionStep, reduceCtorEq, Option.some.injEq, Prod.mk.injEq] at hst
    obtain ⟨rfl, rfl⟩ := hst
    exact ⟨.close, rs, rfl, h⟩
  | acknowledge ok =>
    obtain ⟨phase, acked⟩ := session
    cases phase <;> simp only [sessionStep, reduceCtorEq, Option.some.injEq, Prod.mk.injEq] at hst
    obtain ⟨rfl, rfl⟩ := hst
    exact ⟨.acknowledge ok, rs, rfl, h⟩

/-- What a session of another peer does is not seen. -/
theorem sessionStep_unseen (hclosed : store.dest.Closed) {other : ClientId} (hne : other ≠ peer)
    (h : sessionStep key other event store session = some (store', session')) :
    store'.peers.getPeerInfo peer = store.peers.getPeerInfo peer ∧
      ∀ info, store'.dest.fileAt (filePath (peerFolder peer) info)
        = store.dest.fileAt (filePath (peerFolder peer) info) := by
  have hcreated : ∀ {info content d},
      store.dest.createFile (filePath (peerFolder other) info) content = some d →
      ∀ info', d.fileAt (filePath (peerFolder peer) info')
        = store.dest.fileAt (filePath (peerFolder peer) info') := by
    intro info content d hd info'
    rw [Dest.fileAt_of_createFile hd, if_neg]
    intro heq
    exact hne (peerFolder_injective (filePath_inj (by simp [peerFolder]) heq).1).symm
  cases stepped_of_sessionStep h with
  | stands | forgets => exact ⟨rfl, fun _ => rfl⟩
  | admits _ _ _ hd => exact ⟨rfl, fun _ => (createFolders_spec hclosed hd).1.fileAt _⟩
  | looks _ _ _ _ hd => exact ⟨rfl, fun _ => (sameFiles_createSubfolder hclosed hd).fileAt _⟩
  | writes _ _ _ _ _ hd => exact ⟨rfl, hcreated hd⟩
  | tears _ _ _ _ _ _ hd => exact ⟨rfl, hcreated hd⟩
  | counts => exact ⟨Peers.getPeerInfo_update_of_ne hne _, fun _ => rfl⟩

variable {s s' : Keeper} {r : Receiving.State} {a : Action}

/-- A step of the client is one of the model of the peer, or is not seen in it. -/
theorem Seen.step (h : Seen peer s r) (hlaid : LaidOut s.store)
    (hstep : Keeper.step key s a = some s') : ∃ r',
      Transition.Reach (Receiving.step peer key) (fun _ _ => True) r r' ∧ Seen peer s' r' := by
  cases a with
  | matched p negotiated =>
    obtain rfl := Option.some.inj hstep
    by_cases hp : p = peer
    · subst hp
      refine ⟨_, .tail (.matched negotiated) .refl trivial rfl, ?_, h.files, h.tasks⟩
      simp only [Peers.getPeerInfo_addOrIncrementPeer, h.row]
    · refine ⟨r, .refl, ?_, h.files, h.tasks⟩
      rw [Peers.getPeerInfo_addOrIncrementPeer_of_ne hp, h.row]
  | transmitted p amount =>
    obtain rfl := Option.some.inj hstep
    by_cases hp : p = peer
    · subst hp
      refine ⟨_, .tail (.transmitted amount) .refl trivial rfl, ?_, h.files, h.tasks⟩
      simp only [Peers.peerIncrementTransmitted, Peers.getPeerInfo_update, h.row]
    · refine ⟨r, .refl, ?_, h.files, h.tasks⟩
      rw [Peers.peerIncrementTransmitted, Peers.getPeerInfo_update_of_ne hp, h.row]
  | connect p =>
    obtain rfl := Option.some.inj hstep
    by_cases hp : p = peer
    · subst hp
      refine ⟨_, .tail .connect .refl trivial rfl, h.row, h.files, ?_⟩
      simp only [Pool.spawn_tasks, h.tasks, Function.update_self]
    · refine ⟨r, .refl, h.row, h.files, ?_⟩
      simp only [h.tasks, Function.update_of_ne (Ne.symm hp)]
  | session p t event =>
    obtain ⟨q, hq, rfl⟩ := Option.map_eq_some_iff.mp hstep
    obtain ⟨session, store', session', ht, hst, rfl⟩ := Pool.advance_eq_some.mp hq
    by_cases hp : p = peer
    · subst hp
      obtain ⟨event', rs', hst', hrow, hfiles⟩ :=
        sessionStep_seen hlaid.closed ⟨h.row, h.files⟩ hst
      have hadvance : Receiving.step p key r (.session t event')
          = some ⟨rs', r.tasks.set t session'⟩ :=
        Pool.advance_eq_some.mpr ⟨session, rs', session', by rw [h.tasks]; exact ht, hst', rfl⟩
      refine ⟨_, .tail _ .refl trivial hadvance, hrow, hfiles, ?_⟩
      simp only [h.tasks, Function.update_self]
    · obtain ⟨hrow, hfiles⟩ := sessionStep_unseen hlaid.closed hp hst
      refine ⟨r, .refl, h.row.trans hrow.symm,
        fun info => (h.files info).trans (hfiles info).symm, ?_⟩
      simp only [h.tasks, Function.update_of_ne (Ne.symm hp)]

/-- Whatever happens, what a client does with one peer is a run of the model of that peer. -/
theorem seen_of_reach {d₀ : Dest} (hclosed : d₀.Closed) (hnew : NothingReceived d₀)
    (h : Transition.Reach (Keeper.step key) (fun _ _ => True) (start d₀) s) (peer : ClientId) :
    ∃ r, Transition.Reach (Receiving.step peer key) (fun _ _ => True) Receiving.start r ∧
      Seen peer s r := by
  have hstart : Seen peer (start d₀) Receiving.start := by
    refine ⟨rfl, fun info => ?_, rfl⟩
    obtain ⟨p, hp⟩ := exists_filePath peer info
    have hnone : d₀.fileAt (filePath (peerFolder peer) info) = none := by
      unfold Dest.fileAt
      split
      · rename_i content hnode
        exact absurd (hp ▸ hnode) (hnew p content)
      · rfl
    exact hnone.symm
  obtain ⟨-, r, hr, hseen⟩ := h.invariant
    (I := fun s => LaidOut s.store ∧ ∃ r, Transition.Reach (Receiving.step peer key)
      (fun _ _ => True) Receiving.start r ∧ Seen peer s r)
    ⟨laidOut_start hclosed hnew, _, .refl, hstart⟩ fun _ _ _ hs _ hst => by
      obtain ⟨hlaid, r, hr, hseen⟩ := hs
      obtain ⟨r', hr', hseen'⟩ := hseen.step hlaid hst
      exact ⟨laidOut_step hlaid hst, r', hr.trans hr', hseen'⟩
  exact ⟨r, hr, hseen⟩

end

end Keeper

end Backuwup.Client
