/-
# Sending the files of a peer back (`restore_send.rs`)

When a peer restores, `restore_all_data_to_peer` lists its folders, reads the names back and sends
the files (`PeerStorage.lean` has how they got there).

`peer_storage_round_trip`: what comes back is what was accepted, each file once, and the peer finds
it, if the saves are not disturbed.  Two sessions that save a file of one name at the same time both
return `Ok`, and one of the files is lost (`accepted_file_replaced`); a file that was written but
could not be counted is sent although it was not accepted (`refused_file_sent`).
-/
import Backuwup.Client.NetP2p.PeerStorage

namespace Backuwup.Client

/-! ## 1. Sending back -/

/-- `RESTORE_THROTTLE_DELAY`, in seconds. -/
def restoreThrottleDelay : ℤ := 60

inductive SendBackError
  | rateLimited
  | invalidName
  | ioError
deriving DecidableEq

/-- The file that the name of a packfile stands for. -/
def packfileNamed (name : FileName) : Option FileInfo :=
  (parsePackfilePathIntoId name).map .packfile

/-- The file that the name of an index file stands for. -/
def indexNamed (name : FileName) : Option FileInfo :=
  (parseIndexPathIntoId name).bind fun n =>
    if h : n < 4294967296 then some (.index ⟨n, h⟩) else none

section

variable (d : Dest) (listing : List FileName → List FileName) (key : FixedBytes 4)

/-- The files of a folder are read and sent; its other entries are passed over. -/
def sendFiles (named : FileName → Option FileInfo) (folder : List FileName) :
    List FileName → Except SendBackError (List (FileInfo × Bytes))
  | [] => .ok []
  | name :: names =>
    match d.nodeAt (name :: folder) with
    | some (.file content) =>
      match named name with
      | none => .error .invalidName
      | some info => do
        let rest ← sendFiles named folder names
        return (info, obfuscateDataImpl key content) :: rest
    | _ => sendFiles named folder names

def sendSubfolders (folder : List FileName) :
    List FileName → Except SendBackError (List (FileInfo × Bytes))
  | [] => .ok []
  | name :: names =>
    if d.nodeAt (name :: folder) = some .dir then do
      let files ← sendFiles d key packfileNamed (name :: folder) (listing (name :: folder))
      let rest ← sendSubfolders folder names
      return files ++ rest
    else sendSubfolders folder names

/-- `restore_all_data_to_peer`, with what is sent over a transport that accepts everything. -/
def restoreAllDataToPeer (peer : ClientId) (lastRequest : Option ℤ) (now : ℤ) :
    Except SendBackError (List (FileInfo × Bytes)) :=
  if lastRequest.any fun last => now - restoreThrottleDelay < last then .error .rateLimited
  else
    match readDir d listing (packfileFolder :: peerFolder peer) with
    | none => .error .ioError
    | some subfolders => do
      let packfiles ← sendSubfolders d listing key (packfileFolder :: peerFolder peer) subfolders
      match readDir d listing (indexFolder :: peerFolder peer) with
      | none => .error .ioError
      | some names =>
        let index ← sendFiles d key indexNamed (indexFolder :: peerFolder peer) names
        return packfiles ++ index

end
/-! ## 2. What is sent back -/

theorem indexNamed_indexFileName (n : Fin 4294967296) :
    indexNamed (indexFileName n) = some (.index n) := by
  have hn := n.isLt
  rw [indexNamed, parseIndexPathIntoId_indexFileName (by simp only [u32Max]; omega),
    Option.bind_some, dif_pos hn]

theorem packfileNamed_encode (id : PackfileId) :
    packfileNamed (Hex.encode id.bytes) = some (.packfile id) := by
  rw [packfileNamed, parsePackfilePathIntoId_encode, Option.map_some]

section

variable {d : Dest} {listing : List FileName → List FileName} {key : FixedBytes 4}

/-- What is sent for one entry of a folder. -/
def sentFile (d : Dest) (key : FixedBytes 4) (named : FileName → Option FileInfo)
    (folder : List FileName) (name : FileName) : Option (FileInfo × Bytes) :=
  match d.nodeAt (name :: folder) with
  | some (.file content) => (named name).map fun info => (info, obfuscateDataImpl key content)
  | _ => none

/-- Every file of the folder has a name that stands for a file. -/
theorem sendFiles_ok {named : FileName → Option FileInfo} {folder : List FileName}
    (h : ∀ name content, d.nodeAt (name :: folder) = some (.file content) →
      (named name).isSome = true) (names : List FileName) :
    sendFiles d key named folder names = .ok (names.filterMap (sentFile d key named folder)) := by
  induction names with
  | nil => rfl
  | cons name names ih =>
    rw [sendFiles, List.filterMap_cons]
    split
    · rename_i content hnode
      obtain ⟨info, hinfo⟩ := Option.isSome_iff_exists.mp (h name content hnode)
      simp only [sentFile, hnode, hinfo, ih, Option.map_some]
      rfl
    · rename_i hnot
      have hsent : sentFile d key named folder name = none := by
        unfold sentFile
        split
        · rename_i content hnode
          exact absurd hnode (hnot content)
        · rfl
      rw [hsent]
      exact ih

def sentSubfolder (d : Dest) (listing : List FileName → List FileName) (key : FixedBytes 4)
    (folder : List FileName) (name : FileName) : List (FileInfo × Bytes) :=
  if d.nodeAt (name :: folder) = some .dir then
    (listing (name :: folder)).filterMap (sentFile d key packfileNamed (name :: folder))
  else []

theorem sendSubfolders_ok {folder : List FileName}
    (h : ∀ subfolder name content, d.nodeAt (name :: subfolder :: folder) = some (.file content) →
      (packfileNamed name).isSome = true) (names : List FileName) :
    sendSubfolders d listing key folder names
      = .ok (names.flatMap (sentSubfolder d listing key folder)) := by
  induction names with
  | nil => rfl
  | cons name names ih =>
    rw [sendSubfolders, List.flatMap_cons]
    by_cases hdir : d.nodeAt (name :: folder) = some .dir
    · rw [if_pos hdir, sendFiles_ok (h name), ih]
      simp only [sentSubfolder, if_pos hdir]
      rfl
    · rw [if_neg hdir, ih]
      simp only [sentSubfolder, if_neg hdir, List.nil_append]

/-- All that is sent to a peer. -/
def sentTo (d : Dest) (listing : List FileName → List FileName) (key : FixedBytes 4)
    (peer : ClientId) : List (FileInfo × Bytes) :=
  (listing (packfileFolder :: peerFolder peer)).flatMap
      (sentSubfolder d listing key (packfileFolder :: peerFolder peer)) ++
    (listing (indexFolder :: peerFolder peer)).filterMap
      (sentFile d key indexNamed (indexFolder :: peerFolder peer))

namespace Keeper

/-- The file of the peer is on disk with these data, obfuscated. -/
def OnDisk (d : Dest) (key : FixedBytes 4) (peer : ClientId) (x : FileInfo × Bytes) : Prop :=
  ∃ content, d.nodeAt (filePath (peerFolder peer) x.1) = some (.file content) ∧
    x.2 = obfuscateDataImpl key content

variable {store : Store} {peer : ClientId}

/-- What a peer has in its index folder. -/
theorem LaidOut.index_file (h : LaidOut store) {name : FileName} {content : Bytes}
    (hnode : store.dest.nodeAt (name :: indexFolder :: peerFolder peer) = some (.file content)) :
    ∃ n : Fin 4294967296, name = indexFileName n := by
  obtain ⟨peer', info, hpath⟩ :=
    h.layout [name, indexFolder, Hex.encode peer.bytes] content hnode
  cases info with
  | packfile id =>
    have hlen := congrArg List.length hpath
    simp [filePath, getPackfilePath, peerFolder] at hlen
  | index n => exact ⟨n, (List.cons.inj hpath).1⟩

/-- What a peer has in the subfolders for packfiles. -/
theorem LaidOut.packfile_file (h : LaidOut store) {subfolder name : FileName} {content : Bytes}
    (hnode : store.dest.nodeAt
      (name :: subfolder :: packfileFolder :: peerFolder peer) = some (.file content)) :
    ∃ id : PackfileId, name = Hex.encode id.bytes ∧ subfolder = (Hex.encode id.bytes).take 2 := by
  obtain ⟨peer', info, hpath⟩ :=
    h.layout [name, subfolder, packfileFolder, Hex.encode peer.bytes] content hnode
  cases info with
  | packfile id =>
    exact ⟨id, (List.cons.inj hpath).1, (List.cons.inj (List.cons.inj hpath).2).1⟩
  | index n =>
    have hlen := congrArg List.length hpath
    simp [filePath, getIndexPath, peerFolder] at hlen

/-- What is sent for an entry of the index folder. -/
theorem LaidOut.sentFile_index (h : LaidOut store) {name : FileName} {x : FileInfo × Bytes}
    (hx : sentFile store.dest key indexNamed (indexFolder :: peerFolder peer) name = some x) :
    ∃ n : Fin 4294967296, name = indexFileName n ∧ x.1 = .index n ∧
      OnDisk store.dest key peer x := by
  unfold sentFile at hx
  split at hx
  · rename_i content hnode
    obtain ⟨n, rfl⟩ := h.index_file hnode
    rw [indexNamed_indexFileName, Option.map_some] at hx
    obtain rfl := Option.some.inj hx
    exact ⟨n, rfl, rfl, content, hnode, rfl⟩
  · cases hx

/-- What is sent for an entry of a subfolder. -/
theorem LaidOut.sentFile_packfile (h : LaidOut store) {subfolder name : FileName}
    {x : FileInfo × Bytes} (hx : sentFile store.dest key packfileNamed
      (subfolder :: packfileFolder :: peerFolder peer) name = some x) :
    ∃ id : PackfileId, name = Hex.encode id.bytes ∧ subfolder = (Hex.encode id.bytes).take 2 ∧
      x.1 = .packfile id ∧ OnDisk store.dest key peer x := by
  unfold sentFile at hx
  split at hx
  · rename_i content hnode
    obtain ⟨id, rfl, rfl⟩ := h.packfile_file hnode
    rw [packfileNamed_encode, Option.map_some] at hx
    obtain rfl := Option.some.inj hx
    exact ⟨id, rfl, rfl, rfl, content, hnode, rfl⟩
  · cases hx

theorem LaidOut.restoreAllDataToPeer_ok (h : LaidOut store) (hpeer : peer ∈ store.receivers)
    {lastRequest : Option ℤ} {now : ℤ}
    (hrate : ∀ last ∈ lastRequest, last ≤ now - restoreThrottleDelay) :
    restoreAllDataToPeer store.dest listing key peer lastRequest now
      = .ok (sentTo store.dest listing key peer) := by
  obtain ⟨hindex, hpack⟩ := h.folders peer hpeer
  have hlimit : (lastRequest.any fun last => now - restoreThrottleDelay < last) = false := by
    cases lastRequest with
    | none => rfl
    | some last =>
      have := hrate last rfl
      simpa using this
  rw [restoreAllDataToPeer, hlimit, if_neg (by simp)]
  simp only [readDir, hpack, hindex, if_true]
  rw [sendSubfolders_ok fun subfolder name content hnode => ?_,
    sendFiles_ok fun name content hnode => ?_]
  · rfl
  · obtain ⟨n, rfl⟩ := h.index_file hnode
    rw [indexNamed_indexFileName]
    rfl
  · obtain ⟨id, rfl, -⟩ := h.packfile_file hnode
    rw [packfileNamed_encode]
    rfl

theorem LaidOut.mem_sentSubfolder (h : LaidOut store) {subfolder : FileName}
    {x : FileInfo × Bytes} (hx : x ∈ sentSubfolder store.dest listing key
      (packfileFolder :: peerFolder peer) subfolder) :
    ∃ id : PackfileId, subfolder = (Hex.encode id.bytes).take 2 ∧ x.1 = .packfile id ∧
      OnDisk store.dest key peer x := by
  unfold sentSubfolder at hx
  split at hx
  · obtain ⟨name, -, hname⟩ := List.mem_filterMap.mp hx
    obtain ⟨id, -, hsub, hinfo, hdisk⟩ := h.sentFile_packfile hname
    exact ⟨id, hsub, hinfo, hdisk⟩
  · cases hx

/-- Nothing is sent twice. -/
theorem LaidOut.sentTo_nodup (h : LaidOut store) (hlist : Enumerates store.dest listing) :
    (sentTo store.dest listing key peer).Nodup := by
  refine List.nodup_append.mpr ⟨List.nodup_flatMap.mpr ⟨fun subfolder _ => ?_, ?_⟩, ?_, ?_⟩
  · unfold sentSubfolder
    split
    · refine (hlist.nodup _).filterMap fun name name' x hx hx' => ?_
      obtain ⟨id, rfl, -, hinfo, -⟩ := h.sentFile_packfile hx
      obtain ⟨id', rfl, -, hinfo', -⟩ := h.sentFile_packfile hx'
      rw [FileInfo.packfile.inj (hinfo.symm.trans hinfo')]
    · exact List.nodup_nil
  · refine (hlist.nodup _).imp fun {subfolder subfolder'} hne => ?_
    intro x hx hx'
    obtain ⟨id, hsub, hinfo, -⟩ := h.mem_sentSubfolder hx
    obtain ⟨id', hsub', hinfo', -⟩ := h.mem_sentSubfolder hx'
    refine hne ?_
    rw [hsub, hsub', FileInfo.packfile.inj (hinfo.symm.trans hinfo')]
  · refine (hlist.nodup _).filterMap fun name name' x hx hx' => ?_
    obtain ⟨n, rfl, hinfo, -⟩ := h.sentFile_index hx
    obtain ⟨n', rfl, hinfo', -⟩ := h.sentFile_index hx'
    rw [FileInfo.index.inj (hinfo.symm.trans hinfo')]
  · rintro x hx x' hx' rfl
    obtain ⟨subfolder, -, hsub⟩ := List.mem_flatMap.mp hx
    obtain ⟨id, -, hinfo, -⟩ := h.mem_sentSubfolder hsub
    obtain ⟨name, -, hname⟩ := List.mem_filterMap.mp hx'
    obtain ⟨n, -, hinfo', -⟩ := h.sentFile_index hname
    cases hinfo.symm.trans hinfo'

/-- What is sent to a peer are its files on disk. -/
theorem LaidOut.mem_sentTo (h : LaidOut store) (hlist : Enumerates store.dest listing)
    {x : FileInfo × Bytes} :
    x ∈ sentTo store.dest listing key peer ↔ OnDisk store.dest key peer x := by
  constructor
  · intro hx
    rcases List.mem_append.mp hx with hx | hx
    · obtain ⟨subfolder, -, hsub⟩ := List.mem_flatMap.mp hx
      obtain ⟨-, -, -, hdisk⟩ := h.mem_sentSubfolder hsub
      exact hdisk
    · obtain ⟨name, -, hname⟩ := List.mem_filterMap.mp hx
      obtain ⟨-, -, -, hdisk⟩ := h.sentFile_index hname
      exact hdisk
  · rintro ⟨content, hnode, hdata⟩
    obtain ⟨info, data⟩ := x
    obtain rfl : data = obfuscateDataImpl key content := hdata
    cases info with
    | packfile id =>
      have hdir := h.closed _ _ _ hnode
      refine List.mem_append_left _ (List.mem_flatMap.mpr ⟨(Hex.encode id.bytes).take 2,
        (hlist.mem _ _).mpr ⟨_, hdir⟩, ?_⟩)
      rw [sentSubfolder, if_pos hdir]
      refine List.mem_filterMap.mpr ⟨Hex.encode id.bytes, (hlist.mem _ _).mpr ⟨_, hnode⟩, ?_⟩
      change store.dest.nodeAt (Hex.encode id.bytes :: _) = _ at hnode
      simp only [sentFile, hnode, packfileNamed_encode, Option.map_some]
    | index n =>
      refine List.mem_append_right _ (List.mem_filterMap.mpr ⟨indexFileName n,
        (hlist.mem _ _).mpr ⟨_, hnode⟩, ?_⟩)
      change store.dest.nodeAt (indexFileName n :: _) = _ at hnode
      simp only [sentFile, hnode, indexNamed_indexFileName, Option.map_some]

variable {held : ClientId → List (FileInfo × Bytes)}

theorem Kept.mem_held (h : Kept key store.dest held) {x : FileInfo × Bytes} :
    x ∈ held peer ↔ OnDisk store.dest key peer x := by
  constructor
  · intro hx
    exact ⟨obfuscateDataImpl key x.2, (h.files peer x.1 _).mpr ⟨x.2, hx, rfl⟩,
      (obfuscateDataImpl_involutive key x.2).symm⟩
  · rintro ⟨content, hnode, hdata⟩
    obtain ⟨data, hmem, rfl⟩ := (h.files peer x.1 content).mp hnode
    rw [obfuscateDataImpl_involutive key data] at hdata
    rwa [← hdata] at hmem

/-- Each file of the peer is sent once, and nothing else. -/
theorem Kept.sentTo_perm (h : Kept key store.dest held) (hlaid : LaidOut store)
    (hlist : Enumerates store.dest listing) :
    (sentTo store.dest listing key peer).Perm (held peer) :=
  (List.perm_ext_iff_of_nodup (hlaid.sentTo_nodup hlist) (h.distinct peer).of_map).mpr fun _ =>
    (hlaid.mem_sentTo hlist).trans h.mem_held.symm

end Keeper

end

/-! ## 3. The round trip -/

/-- Whatever has been accepted from a peer, among the files of others and with any number of
sessions at once: in every run in which the saves are not disturbed, sending it back succeeds and
sends each file once, as it was received, and nothing else; and when the peer writes what it
receives into its restore folder, a manager finds every file. -/
theorem peer_storage_round_trip {key : FixedBytes 4} {d₀ : Dest} (hclosed : d₀.Closed)
    (hnew : Keeper.NothingReceived d₀) {s : Keeper}
    (hreach : Transition.Reach (Keeper.step key) Keeper.Undisturbed (.start d₀) s)
    {peer : ClientId} (hpeer : peer ∈ s.store.receivers) (hidle : s.Idle peer)
    {listing : List FileName → List FileName} (hlist : Enumerates s.store.dest listing)
    {lastRequest : Option ℤ} {now : ℤ}
    (hrate : ∀ last ∈ lastRequest, last ≤ now - restoreThrottleDelay) :
    ∃ sent, restoreAllDataToPeer s.store.dest listing key peer lastRequest now = .ok sent ∧
      sent.Perm (s.store.acceptedFrom peer) ∧
      ∀ d, Unobstructed d → ∃ d', writeRestored d sent = some d' ∧
        ∀ listing', Enumerates d' listing' → ∀ file ∈ s.store.acceptedFrom peer,
          (diskAt d' listing' restoredPackfilesFolder).Finds file.2 file.1 := by
  obtain ⟨hlaid, hkept⟩ := hreach.invariant
    (I := fun s => Keeper.LaidOut s.store ∧ Keeper.Kept key s.store.dest s.held)
    ⟨Keeper.laidOut_start hclosed hnew, Keeper.kept_start hnew⟩
    fun _ _ _ hs ha hst => ⟨Keeper.laidOut_step hs.1 hst, Keeper.kept_step hs.1 hs.2 ha hst⟩
  have hheld : s.held peer = s.store.acceptedFrom peer := by
    rw [Keeper.held, List.filterMap_eq_nil_iff.mpr hidle, List.append_nil]
  have hperm : (sentTo s.store.dest listing key peer).Perm (s.store.acceptedFrom peer) :=
    hheld ▸ hkept.sentTo_perm hlaid hlist
  have hnodup : ((s.store.acceptedFrom peer).map Prod.fst).Nodup := hheld ▸ hkept.distinct peer
  refine ⟨_, hlaid.restoreAllDataToPeer_ok hpeer hrate, hperm, fun d hd => ?_⟩
  obtain ⟨d₁, hd₁, hready⟩ := hd.createFolders
  obtain ⟨d', hd', hfiles, -⟩ := hready.writeFiles ((hperm.map Prod.fst).nodup_iff.mpr hnodup)
  refine ⟨d', ?_, fun listing' hlist' file hfile => ?_⟩
  · rw [writeRestored, hd₁]
    exact hd'
  · exact finds_of_nodeAt hlist' (hfiles file (hperm.mem_iff.mpr hfile))

namespace Keeper

variable {key : FixedBytes 4} {s s' : Keeper} {a : Action}

/-- A client adds finitely many entries. -/
theorem finite_step (h : s.store.dest.Finite) (hstep : step key s a = some s') :
    s'.store.dest.Finite := by
  cases a with
  | matched | transmitted | connect => exact Option.some.inj hstep ▸ h
  | session peer t event =>
    obtain ⟨p, hp, rfl⟩ := Option.map_eq_some_iff.mp hstep
    obtain ⟨session, store', session', -, hst, rfl⟩ := Pool.advance_eq_some.mp hp
    cases stepped_of_sessionStep hst with
    | stands | counts | forgets => exact h
    | admits _ _ _ hd =>
      obtain ⟨d₁, hd₁, hd⟩ := Option.bind_eq_some_iff.mp hd
      obtain ⟨d₂, hd₂, hd⟩ := Option.bind_eq_some_iff.mp hd
      exact ((h.createDirAll hd₁).createDirAll hd₂).createDirAll hd
    | looks _ info _ _ hd =>
      cases info with
      | packfile id => exact h.createDirAll hd
      | index n => exact Option.some.inj hd ▸ h
    | writes _ _ _ _ _ hd => exact h.createFile hd
    | tears _ _ _ _ _ _ hd => exact h.createFile hd

theorem finite_of_reach {ok : Keeper → Action → Prop}
    (h : Transition.Reach (step key) ok (start .empty) s) : s.store.dest.Finite :=
  h.invariant (I := fun s => s.store.dest.Finite) finite_empty fun _ _ _ hs _ hst =>
    finite_step hs hst

/-- `Undisturbed`, evaluated. -/
def undisturbed (s : Keeper) : Action → Bool
  | .session peer t (.write .ok) =>
    match (s.sessions peer)[t]? with
    | some ⟨.allowed info _, _⟩ =>
      (s.store.dest.nodeAt (filePath (peerFolder peer) info)).isNone
    | _ => true
  | .session _ _ (.write (.writeFails _)) => false
  | .session _ _ (.count ok) => ok
  | _ => true

theorem undisturbed_ok (s : Keeper) (a : Action) (h : undisturbed s a = true) :
    Undisturbed s a := by
  cases a with
  | session peer t event =>
    cases event with
    | write io =>
      cases io with
      | ok =>
        intro session info data ht hphase
        obtain ⟨phase, acked⟩ := session
        simp only at hphase
        simpa only [undisturbed, ht, hphase, Option.isNone_iff_eq_none] using h
      | createFails => trivial
      | writeFails n => cases h
    | count ok => exact h
    | _ => trivial
  | _ => trivial

theorem nothingReceived_empty : NothingReceived .empty := by
  intro p content
  rw [Dest.nodeAt_empty, if_neg (by simp [receivedPackfilesFolder])]
  simp

/-- A session is opened, and the file is looked for. -/
def offer (peer : ClientId) (t : ℕ) (info : FileInfo) (data : Bytes) : List Action :=
  [.session peer t (.deliver info data), .session peer t (.tryExists true),
    .session peer t (.checkPeer true)]

/-- It is written and counted. -/
def save (peer : ClientId) (t : ℕ) : List Action :=
  [.session peer t (.write .ok), .session peer t (.count true), .session peer t (.acknowledge true)]

def twoSessions (peer : ClientId) : List Action :=
  [.matched peer 100, .connect peer, .connect peer, .session peer 0 (.accept true),
    .session peer 1 (.accept true)]

/-- Two sessions of a peer save files at the same time, while another peer saves a packfile of the
same id; a file that is sent again is refused. -/
def twoPeers : List Action :=
  twoSessions (.fill 1) ++ twoSessions (.fill 2) ++
    offer (.fill 1) 0 (.packfile (.fill 9)) [1, 2, 3, 4, 5] ++ offer (.fill 1) 1 (.index 1) [8] ++
    offer (.fill 2) 0 (.packfile (.fill 9)) [7] ++ save (.fill 1) 1 ++ save (.fill 2) 0 ++
    save (.fill 1) 0 ++ [.session (.fill 1) 0 (.deliver (.index 1) [6]),
      .session (.fill 1) 0 (.tryExists true)]

instance (s : Keeper) (peer : ClientId) : Decidable (s.Idle peer) :=
  inferInstanceAs (Decidable (∀ session ∈ s.sessions peer, writing session = none))

theorem run_twoPeers : ∃ s,
    Transition.runWhen (step (.fill 42)) undisturbed (start .empty) twoPeers = some s ∧
    FixedBytes.fill 1 ∈ s.store.receivers ∧ s.Idle (.fill 1) ∧
    s.store.acceptedFrom (.fill 1)
      = [(.index 1, [8]), (.packfile (.fill 9), [1, 2, 3, 4, 5])] := by
  decide +kernel

/-- What is sent to a peer with a receiver, for some order of the entries of its folders. -/
theorem sent_of_reach {d₀ : Dest} (hclosed : d₀.Closed) (hnew : NothingReceived d₀)
    (hreach : Transition.Reach (step key) (fun _ _ => True) (start d₀) s)
    (hfin : s.store.dest.Finite) {peer : ClientId} (hpeer : peer ∈ s.store.receivers) :
    ∃ listing sent, Enumerates s.store.dest listing ∧
      restoreAllDataToPeer s.store.dest listing key peer none 0 = .ok sent ∧
      ∀ x, x ∈ sent ↔ OnDisk s.store.dest key peer x := by
  have hlaid : LaidOut s.store :=
    hreach.invariant (I := fun s => LaidOut s.store) (laidOut_start hclosed hnew)
      fun _ _ _ hs _ hst => laidOut_step hs hst
  obtain ⟨listing, hlist⟩ := exists_enumerates hfin
  exact ⟨listing, _, hlist, hlaid.restoreAllDataToPeer_ok hpeer nofun,
    fun _ => hlaid.mem_sentTo hlist⟩

end Keeper

/-- The first peer gets back its two files. -/
theorem peer_storage_round_trip_two : ∃ (s : Keeper) (listing : List FileName → List FileName)
    (sent : List (FileInfo × Bytes)),
    Transition.runWhen (Keeper.step (.fill 42)) Keeper.undisturbed (.start .empty) Keeper.twoPeers
      = some s ∧
    restoreAllDataToPeer s.store.dest listing (.fill 42) (.fill 1) none 0 = .ok sent ∧
    sent.Perm [(.index 1, [8]), (.packfile (.fill 9), [1, 2, 3, 4, 5])] := by
  obtain ⟨s, hrun, hpeer, hidle, haccepted⟩ := Keeper.run_twoPeers
  have hreach := Transition.reach_of_runWhen Keeper.undisturbed_ok hrun
  obtain ⟨listing, hlist⟩ := exists_enumerates (Keeper.finite_of_reach hreach)
  have hrate : ∀ last ∈ (none : Option ℤ), last ≤ 0 - restoreThrottleDelay := nofun
  obtain ⟨sent, hsent, hperm, -⟩ := peer_storage_round_trip Dest.closed_empty
    Keeper.nothingReceived_empty hreach hpeer hidle hlist hrate
  exact ⟨s, listing, sent, hrun, hsent, haccepted ▸ hperm⟩

namespace Keeper

/-- Two sessions of a peer save a file of the same name at the same time. -/
def racing : List Action :=
  twoSessions (.fill 1) ++ offer (.fill 1) 0 (.index 1) [1] ++ offer (.fill 1) 1 (.index 1) [2] ++
    save (.fill 1) 0 ++ save (.fill 1) 1

theorem run_racing : ∃ s, Transition.run (step (.fill 42)) (start .empty) racing = some s ∧
    FixedBytes.fill 1 ∈ s.store.receivers ∧ s.Idle (.fill 1) ∧
    s.store.acceptedFrom (.fill 1) = [(.index 1, [1]), (.index 1, [2])] ∧
    s.store.dest.fileAt (filePath (peerFolder (.fill 1)) (.index 1)) = some [40] := by
  decide +kernel

/-- A session writes a file, and the table of peers cannot be updated. -/
def uncounted : List Action :=
  twoSessions (.fill 1) ++ offer (.fill 1) 0 (.index 1) [1] ++
    [.session (.fill 1) 0 (.write .ok), .session (.fill 1) 0 (.count false)]

theorem run_uncounted : ∃ s, Transition.run (step (.fill 42)) (start .empty) uncounted = some s ∧
    FixedBytes.fill 1 ∈ s.store.receivers ∧ s.Idle (.fill 1) ∧
    s.store.acceptedFrom (.fill 1) = [] ∧
    s.store.dest.fileAt (filePath (peerFolder (.fill 1)) (.index 1)) = some [43] := by
  decide +kernel

end Keeper

/-- Both have been accepted, and one of them is not sent back. -/
theorem accepted_file_replaced : ∃ (s : Keeper) (listing : List FileName → List FileName)
    (sent : List (FileInfo × Bytes)),
    Transition.run (Keeper.step (.fill 42)) (.start .empty) Keeper.racing = some s ∧
    s.Idle (.fill 1) ∧
    s.store.acceptedFrom (.fill 1) = [(.index 1, [1]), (.index 1, [2])] ∧
    Enumerates s.store.dest listing ∧
    restoreAllDataToPeer s.store.dest listing (.fill 42) (.fill 1) none 0 = .ok sent ∧
    (.index 1, [1]) ∉ sent ∧ ¬ sent.Perm (s.store.acceptedFrom (.fill 1)) := by
  obtain ⟨s, hrun, hpeer, hidle, haccepted, hfile⟩ := Keeper.run_racing
  have hreach := Transition.reach_of_run_true hrun
  obtain ⟨listing, sent, hlist, hsent, hmem⟩ := Keeper.sent_of_reach Dest.closed_empty
    Keeper.nothingReceived_empty hreach (Keeper.finite_of_reach hreach) hpeer
  have hlost : (FileInfo.index 1, [(1 : Byte)]) ∉ sent := by
    rw [hmem]
    rintro ⟨content, hnode, hdata⟩
    simp only [Dest.fileAt, hnode, Option.some.injEq] at hfile
    rw [hfile] at hdata
    exact absurd hdata (by decide +kernel)
  refine ⟨s, listing, sent, hrun, hidle, haccepted, hlist, hsent, hlost, fun hperm => hlost ?_⟩
  rw [hperm.mem_iff, haccepted]
  exact List.mem_cons_self

/-- A file that was not accepted is sent back. -/
theorem refused_file_sent : ∃ (s : Keeper) (listing : List FileName → List FileName)
    (sent : List (FileInfo × Bytes)),
    Transition.run (Keeper.step (.fill 42)) (.start .empty) Keeper.uncounted = some s ∧
    s.Idle (.fill 1) ∧ s.store.acceptedFrom (.fill 1) = [] ∧
    Enumerates s.store.dest listing ∧
    restoreAllDataToPeer s.store.dest listing (.fill 42) (.fill 1) none 0 = .ok sent ∧
    (.index 1, [1]) ∈ sent := by
  obtain ⟨s, hrun, hpeer, hidle, haccepted, hfile⟩ := Keeper.run_uncounted
  have hreach := Transition.reach_of_run_true hrun
  obtain ⟨listing, sent, hlist, hsent, hmem⟩ := Keeper.sent_of_reach Dest.closed_empty
    Keeper.nothingReceived_empty hreach (Keeper.finite_of_reach hreach) hpeer
  refine ⟨s, listing, sent, hrun, hidle, haccepted, hlist, hsent, (hmem _).mpr ?_⟩
  exact ⟨[43], Dest.fileAt_eq_some.mp hfile, by decide +kernel⟩

end Backuwup.Client
