/-
# The nonces of the index files over the life of a root secret

Every index file is encrypted under one key, derived from the root secret, with the number of
the file as nonce.  The number continues the names found in one local folder, while the secret
can be set up on a further machine, whose folder is empty, and while a flush that failed leaves
its number to be used again.  This module runs any number of machines that share a secret:
their backups, crashes, failed flushes and restores, and the index files they send.

`index_nonce_fresh` is what holds of every run in which only one machine encrypts, and in which a
flush that failed is repeated with the same entries, by the same process or by the next one.  Then
the number of a flush is above all numbers used so far, or that of the flush it repeats
(`CountsAhead.upTo`), so that each number has one plaintext (`OnePlaintext`).  A second machine
breaks the condition with its first flush (`index_nonce_reused`).  The backups of one machine are
taken one after another here; whether they are is the subject of
`Backuwup.Client.Orchestrator.Exclusive`.
-/
import Backuwup.Client.Packfile.BlobIndex
import Backuwup.Lib.Transition
import Mathlib.Logic.Function.Basic

namespace Backuwup.Client

/-! ## 1. The state -/

/-- A flush that has encrypted these entries and then failed. -/
structure FailedFlush where
  entries : List IndexEntry
  /-- the file of its number is there, whole or in part -/
  created : Bool
deriving DecidableEq

/-- A machine: its keys once it has been set up, its index folder, the index of the running backup,
and whether the last backup got to `set_packing_completed`, after which the index is sent. -/
structure Machine where
  keys : Option KeyManager
  folder : Folder
  process : Option BlobIndex
  /-- the last flush, if it failed and no index has been loaded since that reads its file -/
  failed : Option FailedFlush
  packingCompleted : Bool

structure IndexUse where
  machine : ℕ
  number : ℕ
  key : SymmetricKey
  nonce : Nonce
  plaintext : Bytes
deriving DecidableEq

/-- All machines, with the encryptions and the transfers that have taken place. -/
structure Machines where
  machine : ℕ → Machine
  used : List IndexUse
  sent : List (ℕ × Bytes)

namespace Machines

def start : Machines := ⟨fun _ => ⟨none, [], none, none, false⟩, [], []⟩

def setMachine (w : Machines) (m : ℕ) (machine : Machine) : Machines :=
  { w with machine := Function.update w.machine m machine }

/-- A flush of the index encrypts its buffer under the next number. -/
def recordUse (w : Machines) (P : Primitives) (keys : KeyManager) (m : ℕ) (ix : BlobIndex) :
    Machines :=
  if ix.Encryptable then
    { w with used := ⟨m, ix.lastFileNum + 1, indexKey P keys, counterToNonce (ix.lastFileNum + 1),
        entriesCodec.enc ix.itemsBuf⟩ :: w.used }
  else w

end Machines

/-- What is known of the last flush after this one. -/
def Machine.failedAfter (M : Machine) (ix : BlobIndex) (io : FileWrite) : Option FailedFlush :=
  if ix.Encryptable then
    match io with
    | .ok => none
    -- the file of an earlier attempt stays
    | .createFails => some ⟨ix.itemsBuf, M.failed.any FailedFlush.created⟩
    | .writeFails _ => some ⟨ix.itemsBuf, true⟩
  else M.failed

/-! ## 2. The steps -/

inductive MachineAction
  /-- `new_secret_setup` or `existing_secret_setup`, with the secret of the run -/
  | setup (m : ℕ)
  /-- a backup opens the index; what the two listings of the folder yield -/
  | openIndex (m : ℕ) (names : List FileName) (files : Folder)
  | push (m : ℕ) (entry : IndexEntry) (io : FileWrite)
  /-- the flush at the end of `pack`, which returns `Ok` after it only if nothing else failed -/
  | finish (m : ℕ) (io : FileWrite) (packed : Bool)
  | crash (m : ℕ)
  /-- a restore works in a folder of its own, which it deletes -/
  | restore (m : ℕ)
  /-- `send_index` sends a file of the folder and the peer acknowledges it -/
  | send (m : ℕ) (file : FileName × Bytes)

def machineStep (P : Primitives) (secret : RootSecret) (w : Machines) :
    MachineAction → Option Machines
  | .setup m =>
    match (w.machine m).keys with
    | none => some (w.setMachine m { w.machine m with keys := some (.fromSecret P secret) })
    | some _ => none
  | .openIndex m names files =>
    match (w.machine m).keys, (w.machine m).process with
    | some keys, none =>
      if names.Perm ((w.machine m).folder.map Prod.fst) ∧ files.Perm (w.machine m).folder then
        match BlobIndex.new P keys names files with
        | .ok ix => some (w.setMachine m { w.machine m with
            process := some ix, failed := (w.machine m).failed.filter fun f => !f.created,
            packingCompleted := false })
        | .error _ => some (w.setMachine m { w.machine m with packingCompleted := false })
      else none
    | _, _ => none
  | .push m entry io =>
    match (w.machine m).keys, (w.machine m).process with
    | some keys, some ix =>
      if (ix.buffer entry).Full then
        ((ix.buffer entry).flush P keys (w.machine m).folder io).map fun (ix', folder, _) =>
          (w.recordUse P keys m (ix.buffer entry)).setMachine m { w.machine m with
            folder := folder, process := some ix',
            failed := (w.machine m).failedAfter (ix.buffer entry) io }
      else some (w.setMachine m { w.machine m with process := some (ix.buffer entry) })
    | _, _ => none
  | .finish m io packed =>
    match (w.machine m).keys, (w.machine m).process with
    | some keys, some ix =>
      (ix.flush P keys (w.machine m).folder io).map fun (_, folder, r) =>
        (w.recordUse P keys m ix).setMachine m { w.machine m with
          folder := folder, process := none, failed := (w.machine m).failedAfter ix io,
          packingCompleted := packed && decide (r = .ok ()) }
    | _, _ => none
  | .crash m =>
    some (w.setMachine m { w.machine m with process := none, packingCompleted := false })
  | .restore _ => some w
  | .send m file =>
    if (w.machine m).packingCompleted ∧ file ∈ (w.machine m).folder then
      (parseIndexPathIntoId file.1).map fun num => { w with sent := (num, file.2) :: w.sent }
    else none

/-! ## 3. The property and its condition -/

namespace Machines

/-- No two plaintexts under one key and nonce, and no two contents under one number. -/
structure NonceFresh (w : Machines) : Prop where
  used : ∀ u ∈ w.used, ∀ v ∈ w.used, u.key = v.key → u.nonce = v.nonce →
    u.plaintext = v.plaintext
  sent : ∀ s ∈ w.sent, ∀ t ∈ w.sent, s.1 = t.1 → s.2 = t.2

end Machines

/-- Only this machine has encrypted an index so far, and if its last flush failed, then it is
repeated with the same entries. -/
def Repeats (w : Machines) (m : ℕ) (ix : BlobIndex) : Prop :=
  ix.Encryptable → (∀ u ∈ w.used, u.machine = m) ∧
    ∀ f ∈ (w.machine m).failed, ix.itemsBuf = f.entries

/-- The condition on a step, if it is a flush. -/
def FlushesSteadily (w : Machines) : MachineAction → Prop
  | .push m entry _ => ∀ ix ∈ (w.machine m).process,
      (ix.buffer entry).Full → Repeats w m (ix.buffer entry)
  | .finish m _ _ => ∀ ix ∈ (w.machine m).process, Repeats w m ix
  | _ => True

/-! ## 4. The invariant -/

/-- The content of a file that holds the whole of an encryption. -/
def IndexUse.content (P : Primitives) (u : IndexUse) : Bytes := P.encrypt u.key u.nonce u.plaintext

/-- The encryption is one of the index under the key of the secret. -/
structure IndexUse.WellFormed (P : Primitives) (secret : RootSecret) (u : IndexUse) : Prop where
  number_le : u.number ≤ u32Max
  key_eq : u.key = indexKey P (.fromSecret P secret)
  nonce_eq : u.nonce = counterToNonce u.number
  length_le : u.plaintext.length ≤ aesGcmMaxPlaintext

/-- The file holds a part of an encryption that has taken place. -/
def Written (P : Primitives) (w : Machines) (f : FileName × Bytes) : Prop :=
  ∃ u ∈ w.used, ∃ n, f = (indexFileName u.number, (u.content P).take n)

/-- The file holds the whole of it. -/
def Complete (P : Primitives) (w : Machines) (f : FileName × Bytes) : Prop :=
  ∃ u ∈ w.used, f = (indexFileName u.number, u.content P)

/-- What is known of one machine: its keys come from the secret, and only the file that the running
backup writes next can be partial. -/
structure MachineOk (P : Primitives) (secret : RootSecret) (w : Machines) (M : Machine) :
    Prop where
  keys : ∀ keys, M.keys = some keys → keys = .fromSecret P secret
  written : ∀ f ∈ M.folder, Written P w f
  complete : ∀ ix, M.process = some ix → ∀ f ∈ M.folder,
    f.1 ≠ indexFileName (ix.lastFileNum + 1) → Complete P w f
  packing : ∀ ix, M.process = some ix → M.packingCompleted = false
  packed : M.packingCompleted = true → ∀ f ∈ M.folder, Complete P w f

/-- The largest number of a file in the folder. -/
def Machine.maxNum (M : Machine) : ℕ := maxFileNum (M.folder.map Prod.fst)

/-- How the numbers of the machine that encrypts are counted.  The running index continues its
folder, or has left there the file of a flush that failed.  A number above those of the files is
that of a flush whose file could not be created. -/
structure CountsAhead (w : Machines) (m : ℕ) : Prop where
  process : ∀ ix, (w.machine m).process = some ix → (w.machine m).maxNum
    = ix.lastFileNum + if (w.machine m).failed.any FailedFlush.created then 1 else 0
  used : ∀ u ∈ w.used, u.number ≤ (w.machine m).maxNum ∨
    u.number = (w.machine m).maxNum + 1 ∧ ∃ f, (w.machine m).failed = some f ∧
      f.created = false ∧ u.plaintext = entriesCodec.enc f.entries
  failed : ∀ f, (w.machine m).failed = some f → f.created = true →
    ∀ u ∈ w.used, u.number = (w.machine m).maxNum → u.plaintext = entriesCodec.enc f.entries

/-- A number has one plaintext, and what was sent under it is the whole of its encryption. -/
structure OnePlaintext (P : Primitives) (secret : RootSecret) (w : Machines) : Prop where
  well : ∀ u ∈ w.used, u.WellFormed P secret
  one : ∀ u ∈ w.used, ∀ v ∈ w.used, u.number = v.number → u.plaintext = v.plaintext
  machines : ∀ m, MachineOk P secret w (w.machine m)
  sent : ∀ s ∈ w.sent, ∃ u ∈ w.used, s = (u.number, u.content P)

section

variable {P : Primitives} {secret : RootSecret} {w w' : Machines}

theorem Written.mono (hsub : ∀ u ∈ w.used, u ∈ w'.used) {f : FileName × Bytes}
    (h : Written P w f) : Written P w' f := by
  obtain ⟨u, hu, n, hf⟩ := h
  exact ⟨u, hsub u hu, n, hf⟩

theorem Complete.mono (hsub : ∀ u ∈ w.used, u ∈ w'.used) {f : FileName × Bytes}
    (h : Complete P w f) : Complete P w' f := by
  obtain ⟨u, hu, hf⟩ := h
  exact ⟨u, hsub u hu, hf⟩

theorem Complete.written {f : FileName × Bytes} (h : Complete P w f) : Written P w f := by
  obtain ⟨u, hu, rfl⟩ := h
  exact ⟨u, hu, (u.content P).length, by rw [List.take_length]⟩

/-- A partial file that still decrypts is complete. -/
theorem Written.complete_of_decrypt (hrej : P.RejectsTruncated) {f : FileName × Bytes}
    (hwell : ∀ u ∈ w.used, u.WellFormed P secret) (h : Written P w f)
    (hdec : ∀ num, parseU32 f.1 = some num →
      P.decrypt (indexKey P (.fromSecret P secret)) (counterToNonce num) f.2 ≠ none) :
    Complete P w f := by
  obtain ⟨u, hu, n, rfl⟩ := h
  obtain ⟨hnum, hkey, hnonce, hlen⟩ := hwell u hu
  refine ⟨u, hu, ?_⟩
  have hsome := hdec u.number (parseIndexPathIntoId_indexFileName hnum)
  by_cases hn : n < (u.content P).length
  · rw [← hkey, ← hnonce] at hsome
    exact absurd (hrej u.key u.nonce u.plaintext n hlen hn) hsome
  · rw [List.take_of_length_le (not_lt.mp hn)]

theorem MachineOk.mono (hsub : ∀ u ∈ w.used, u ∈ w'.used) {M : Machine}
    (h : MachineOk P secret w M) : MachineOk P secret w' M where
  keys := h.keys
  written f hf := (h.written f hf).mono hsub
  complete p hp f hf hne := (h.complete p hp f hf hne).mono hsub
  packing := h.packing
  packed hp f hf := (h.packed hp f hf).mono hsub

theorem OnePlaintext.start (P : Primitives) (secret : RootSecret) :
    OnePlaintext P secret .start where
  well _ hu := by simp [Machines.start] at hu
  one _ hu := by simp [Machines.start] at hu
  machines _ := by constructor <;> simp [Machines.start]
  sent _ hs := by simp [Machines.start] at hs

/-- One machine changes to a state that is in order. -/
theorem OnePlaintext.setMachine (h : OnePlaintext P secret w) (m : ℕ) {M : Machine}
    (hM : MachineOk P secret w M) : OnePlaintext P secret (w.setMachine m M) where
  well := h.well
  one := h.one
  machines j := by
    have hsub : ∀ u ∈ w.used, u ∈ (w.setMachine m M).used := fun _ hu => hu
    have hj : (w.setMachine m M).machine j = if j = m then M else w.machine j := by
      simp only [Machines.setMachine, Function.update_apply]
    rw [hj]
    split
    · exact hM.mono hsub
    · exact (h.machines j).mono hsub
  sent := h.sent

theorem used_subset_recordUse (w : Machines) (P : Primitives) (keys : KeyManager) (m : ℕ)
    (ix : BlobIndex) : ∀ u ∈ w.used, u ∈ (w.recordUse P keys m ix).used := by
  intro u hu
  unfold Machines.recordUse
  split
  · exact List.mem_cons_of_mem _ hu
  · exact hu

theorem mem_recordUse {keys : KeyManager} {m : ℕ} {ix : BlobIndex} (henc : ix.Encryptable) :
    (⟨m, ix.lastFileNum + 1, indexKey P keys, counterToNonce (ix.lastFileNum + 1),
      entriesCodec.enc ix.itemsBuf⟩ : IndexUse) ∈ (w.recordUse P keys m ix).used := by
  rw [Machines.recordUse, if_pos henc]
  exact List.mem_cons_self

/-- An encryption under a number that has stood for nothing else. -/
theorem OnePlaintext.recordUse (h : OnePlaintext P secret w) (m : ℕ) (ix : BlobIndex)
    (hlt : ix.lastFileNum < u32Max)
    (hold : ix.Encryptable → ∀ u ∈ w.used, u.number = ix.lastFileNum + 1 →
      u.plaintext = entriesCodec.enc ix.itemsBuf) :
    OnePlaintext P secret (w.recordUse P (.fromSecret P secret) m ix) := by
  by_cases henc : ix.Encryptable
  · have hsub := used_subset_recordUse w P (.fromSecret P secret) m ix
    have hmachines := fun j => (h.machines j).mono hsub
    have hsent : ∀ s ∈ w.sent, ∃ u ∈ (w.recordUse P (.fromSecret P secret) m ix).used,
        s = (u.number, u.content P) := by
      intro s hs
      obtain ⟨u, hu, rfl⟩ := h.sent s hs
      exact ⟨u, hsub u hu, rfl⟩
    rw [Machines.recordUse, if_pos henc] at hmachines hsent ⊢
    refine ⟨?_, ?_, hmachines, hsent⟩
    · intro u hu
      rcases List.mem_cons.mp hu with rfl | hu
      · exact ⟨hlt, rfl, rfl, henc⟩
      · exact h.well u hu
    · intro u hu v hv huv
      rcases List.mem_cons.mp hu with rfl | hu
      · rcases List.mem_cons.mp hv with rfl | hv
        · rfl
        · exact (hold henc v hv huv.symm).symm
      · rcases List.mem_cons.mp hv with rfl | hv
        · exact hold henc u hu huv
        · exact h.one u hu v hv huv
  · rwa [Machines.recordUse, if_neg henc]

/-- The files after a flush: only the file of the new number can be partial, and it is not
when the flush succeeded. -/
theorem files_of_flush (m : ℕ) {ix ix' : BlobIndex} {folder folder' : Folder} {io : FileWrite}
    {r : Except PackfileError Unit}
    (hflush : ix.flush P (.fromSecret P secret) folder io = some (ix', folder', r))
    (hw : ∀ f ∈ folder, Written P w f)
    (hc : ∀ f ∈ folder, f.1 ≠ indexFileName (ix.lastFileNum + 1) → Complete P w f) :
    (∀ f ∈ folder', Written P (w.recordUse P (.fromSecret P secret) m ix) f) ∧
    (∀ f ∈ folder', f.1 ≠ indexFileName (ix.lastFileNum + 1) →
      Complete P (w.recordUse P (.fromSecret P secret) m ix) f) ∧
    (r = .ok () → ∀ f ∈ folder', Complete P (w.recordUse P (.fromSecret P secret) m ix) f) := by
  have hsub := used_subset_recordUse w P (.fromSecret P secret) m ix
  obtain ⟨-, ⟨-, henc, -, rfl⟩ | ⟨hr, -, rfl | ⟨henc, n, -, rfl⟩⟩⟩ := BlobIndex.flush_cases hflush
  · have hall : ∀ f ∈ folder.write (indexFileName (ix.lastFileNum + 1))
        (sealedEntries P (.fromSecret P secret) (ix.lastFileNum + 1) ix.itemsBuf),
        Complete P (w.recordUse P (.fromSecret P secret) m ix) f := by
      intro f hf
      rcases Folder.mem_write hf with rfl | ⟨hf, hne⟩
      · exact ⟨_, mem_recordUse henc, rfl⟩
      · exact (hc f hf hne).mono hsub
    exact ⟨fun f hf => (hall f hf).written, fun f hf _ => hall f hf, fun _ => hall⟩
  · exact ⟨fun f hf => (hw f hf).mono hsub, fun f hf hne => (hc f hf hne).mono hsub,
      fun hok => absurd hok hr⟩
  · refine ⟨?_, ?_, fun hok => absurd hok hr⟩
    · intro f hf
      rcases Folder.mem_write hf with rfl | ⟨hf, -⟩
      · exact ⟨_, mem_recordUse henc, n, rfl⟩
      · exact (hw f hf).mono hsub
    · intro f hf hne
      rcases Folder.mem_write hf with rfl | ⟨hf, -⟩
      · exact absurd rfl hne
      · exact (hc f hf hne).mono hsub

/-- The invariant has what the property asks for. -/
theorem OnePlaintext.nonceFresh (h : OnePlaintext P secret w) : w.NonceFresh where
  used u hu v hv _ hnonce := by
    have hwu := h.well u hu
    have hwv := h.well v hv
    refine h.one u hu v hv (counterToNonce_inj hwu.number_le hwv.number_le ?_)
    rw [← hwu.nonce_eq, ← hwv.nonce_eq, hnonce]
  sent s hs t ht hst := by
    obtain ⟨u, hu, rfl⟩ := h.sent s hs
    obtain ⟨v, hv, rfl⟩ := h.sent t ht
    have hwu := h.well u hu
    have hwv := h.well v hv
    have hnum : u.number = v.number := hst
    simp only [IndexUse.content, hwu.key_eq, hwv.key_eq, hwu.nonce_eq, hwv.nonce_eq, hnum,
      h.one u hu v hv hnum]

/-- A backup has loaded the index: it has decrypted every file, so none of them is partial. -/
theorem OnePlaintext.opened (hrej : P.RejectsTruncated) (h : OnePlaintext P secret w) {m : ℕ}
    {names : List FileName} {files : Folder} {ix : BlobIndex}
    (hnew : BlobIndex.new P (.fromSecret P secret) names files = .ok ix)
    (hperm : files.Perm (w.machine m).folder) (failed : Option FailedFlush) :
    OnePlaintext P secret (w.setMachine m { w.machine m with
      process := some ix, failed := failed, packingCompleted := false }) := by
  have hM := h.machines m
  have hall : ∀ f ∈ (w.machine m).folder, Complete P w f := by
    intro f hf
    refine (hM.written f hf).complete_of_decrypt hrej h.well ?_
    obtain ⟨items, hload, -⟩ := BlobIndex.new_ok hnew
    exact decrypt_of_loadFiles hload f (hperm.mem_iff.mpr hf)
  exact h.setMachine m { hM with
    complete := fun _ _ f hf _ => hall f hf
    packing := fun _ _ => rfl
    packed := nofun }

/-- A push has left its entry in the buffer. -/
theorem OnePlaintext.buffered (h : OnePlaintext P secret w) {m : ℕ} {ix : BlobIndex}
    (hproc : (w.machine m).process = some ix) (entry : IndexEntry) :
    OnePlaintext P secret (w.setMachine m
      { w.machine m with process := some (ix.buffer entry) }) := by
  have hM := h.machines m
  refine h.setMachine m { hM with
    complete := ?_
    packing := fun _ _ => hM.packing ix hproc }
  intro ix' hix' f hf hne
  obtain rfl := Option.some.inj hix'
  exact hM.complete ix hproc f hf hne

/-- A flush: the backup goes on with the index that it leaves, or ends. -/
theorem OnePlaintext.flushed (h : OnePlaintext P secret w) {m : ℕ} {ix₀ ix ix' : BlobIndex}
    (hproc : (w.machine m).process = some ix₀) (hnum : ix.lastFileNum = ix₀.lastFileNum)
    (hold : ix.Encryptable → ∀ u ∈ w.used, u.number = ix.lastFileNum + 1 →
      u.plaintext = entriesCodec.enc ix.itemsBuf)
    {io : FileWrite} {folder : Folder} {r : Except PackfileError Unit}
    (hflush : ix.flush P (.fromSecret P secret) (w.machine m).folder io = some (ix', folder, r))
    {process : Option BlobIndex} (hprocess : ∀ x ∈ process, x = ix') {packed : Bool}
    (hpacked : packed = true → process = none ∧ r = .ok ()) (failed : Option FailedFlush) :
    OnePlaintext P secret ((w.recordUse P (.fromSecret P secret) m ix).setMachine m
      { w.machine m with
        folder := folder, process := process, failed := failed, packingCompleted := packed }) := by
  have hM := h.machines m
  have hcases := BlobIndex.flush_cases hflush
  have hrec := h.recordUse m ix hcases.1 hold
  obtain ⟨hwritten, hcomplete, hwhole⟩ := files_of_flush (w := w) m hflush hM.written (by
    rw [hnum]
    exact hM.complete ix₀ hproc)
  refine hrec.setMachine m ⟨hM.keys, hwritten, ?_, ?_, ?_⟩
  · intro x hx f hf hne
    obtain rfl := hprocess x hx
    obtain ⟨-, ⟨hr, -⟩ | ⟨-, rfl, -⟩⟩ := hcases
    · exact hwhole hr f hf
    · exact hcomplete f hf hne
  · intro x hx
    cases hp : packed with
    | false => rfl
    | true =>
      obtain ⟨hnone, -⟩ := hpacked hp
      cases hnone.symm.trans hx
  · intro hp
    exact hwhole (hpacked hp).2

/-- A file of a packed backup is sent. -/
theorem OnePlaintext.sendFile (h : OnePlaintext P secret w) {m num : ℕ} {file : FileName × Bytes}
    (hpacked : (w.machine m).packingCompleted = true) (hmem : file ∈ (w.machine m).folder)
    (hnum : parseIndexPathIntoId file.1 = some num) :
    OnePlaintext P secret { w with sent := (num, file.2) :: w.sent } := by
  have hsub : ∀ u ∈ w.used,
      u ∈ ({ w with sent := (num, file.2) :: w.sent } : Machines).used := fun _ hu => hu
  refine { h with machines := fun j => (h.machines j).mono hsub, sent := ?_ }
  intro s hs
  rcases List.mem_cons.mp hs with rfl | hs
  · obtain ⟨u, hu, rfl⟩ := (h.machines m).packed hpacked file hmem
    rw [parseIndexPathIntoId_indexFileName (h.well u hu).number_le] at hnum
    exact ⟨u, hu, by rw [Option.some.inj hnum]⟩
  · exact h.sent s hs

/-! ## 5. The numbers -/

theorem Machines.machine_setMachine (w : Machines) (m : ℕ) (M : Machine) :
    (w.setMachine m M).machine m = M := by
  simp only [setMachine, Function.update_self]

theorem Machines.machine_setMachine_ne {m j : ℕ} (h : j ≠ m) (w : Machines) (M : Machine) :
    (w.setMachine m M).machine j = w.machine j := by
  simp only [setMachine, Function.update_of_ne h]

/-- Every number used so far is at most the last one of the index, or it is the next one and that
of the flush to be repeated. -/
theorem CountsAhead.upTo {m : ℕ} {ix : BlobIndex} (h : CountsAhead w m)
    (hproc : (w.machine m).process = some ix) {entries : List IndexEntry}
    (hrepeats : ∀ f ∈ (w.machine m).failed, entries = f.entries) :
    ∀ u ∈ w.used, u.number ≤ ix.lastFileNum ∨
      u.number = ix.lastFileNum + 1 ∧ u.plaintext = entriesCodec.enc entries := by
  intro u hu
  have hmax := h.process ix hproc
  cases hfailed : (w.machine m).failed with
  | none =>
    simp only [hfailed, Option.any_none, Bool.false_eq_true, if_false] at hmax
    rcases h.used u hu with hle | ⟨-, f, hf, -⟩
    · exact Or.inl (by omega)
    · cases hfailed.symm.trans hf
  | some f =>
    obtain rfl := hrepeats f hfailed
    simp only [hfailed, Option.any_some] at hmax
    cases hcreated : f.created with
    | false =>
      simp only [hcreated, Bool.false_eq_true, if_false] at hmax
      rcases h.used u hu with hle | ⟨hnum, f', hf', -, hplain⟩
      · exact Or.inl (by omega)
      · cases hfailed.symm.trans hf'
        exact Or.inr ⟨by omega, hplain⟩
    | true =>
      simp only [hcreated, if_true] at hmax
      rcases h.used u hu with hle | ⟨-, f', hf', hcreated', -⟩
      · by_cases hlast : u.number = (w.machine m).maxNum
        · exact Or.inr ⟨by omega, h.failed f hfailed hcreated u hu hlast⟩
        · exact Or.inl (by omega)
      · cases hfailed.symm.trans hf'
        cases hcreated.symm.trans hcreated'

/-- With the next number used, no number is above it, and it has one plaintext. -/
theorem CountsAhead.used_flush (P : Primitives) (keys : KeyManager) {m : ℕ} {ix₀ ix : BlobIndex}
    (h : CountsAhead w m) (hproc : (w.machine m).process = some ix₀)
    (hnum : ix.lastFileNum = ix₀.lastFileNum) (henc : ix.Encryptable)
    (hrepeats : ∀ f ∈ (w.machine m).failed, ix.itemsBuf = f.entries) :
    ∀ u ∈ (w.recordUse P keys m ix).used, u.number ≤ ix.lastFileNum + 1 ∧
      (u.number = ix.lastFileNum + 1 → u.plaintext = entriesCodec.enc ix.itemsBuf) := by
  intro u hu
  rw [Machines.recordUse, if_pos henc] at hu
  rcases List.mem_cons.mp hu with rfl | hu
  · exact ⟨le_refl _, fun _ => rfl⟩
  · rcases h.upTo hproc hrepeats u hu with hle | ⟨heq, hplain⟩
    · exact ⟨by omega, fun heq => absurd heq (by omega)⟩
    · exact ⟨by omega, fun _ => hplain⟩

/-- A machine whose last number has its file. -/
theorem CountsAhead.created {m n : ℕ} {M : Machine} (hmax : M.maxNum = n)
    (hprocess : ∀ x, M.process = some x →
      n = x.lastFileNum + if M.failed.any FailedFlush.created then 1 else 0)
    (hused : ∀ u ∈ w.used, u.number ≤ n)
    (hfailed : ∀ f, M.failed = some f → ∀ u ∈ w.used, u.number = n →
      u.plaintext = entriesCodec.enc f.entries) : CountsAhead (w.setMachine m M) m := by
  constructor
  all_goals rw [Machines.machine_setMachine]
  · intro x hx
    exact hmax.trans (hprocess x hx)
  · intro u hu
    exact Or.inl ((hused u hu).trans hmax.ge)
  · intro f hf _ u hu hlast
    exact hfailed f hf u hu (hlast.trans hmax)

/-- A machine that has used its last number and could not create the file; that of an earlier
attempt may be there. -/
theorem CountsAhead.notCreated {m n : ℕ} {M : Machine} {f : FailedFlush}
    (hfailed : M.failed = some f) (hmax : M.maxNum = n + if f.created then 1 else 0)
    (hprocess : ∀ x, M.process = some x → x.lastFileNum = n)
    (hused : ∀ u ∈ w.used, u.number ≤ n + 1 ∧
      (u.number = n + 1 → u.plaintext = entriesCodec.enc f.entries)) :
    CountsAhead (w.setMachine m M) m := by
  constructor
  all_goals rw [Machines.machine_setMachine]
  · intro x hx
    rw [hprocess x hx, hfailed, Option.any_some]
    exact hmax
  · intro u hu
    obtain ⟨hle, hplain⟩ := hused u hu
    cases hcreated : f.created with
    | true =>
      simp only [hcreated, if_true] at hmax
      exact Or.inl (hle.trans hmax.ge)
    | false =>
      simp only [hcreated, Bool.false_eq_true, if_false, Nat.add_zero] at hmax
      rw [hmax]
      by_cases hlast : u.number = n + 1
      · exact Or.inr ⟨hlast, f, hfailed, hcreated, hplain hlast⟩
      · exact Or.inl (by omega)
  · intro f' hf' hcreated u hu hlast
    obtain rfl := Option.some.inj (hfailed.symm.trans hf')
    simp only [hcreated, if_true] at hmax
    exact (hused u hu).2 (hlast.trans hmax)

/-- A flush that encrypts goes on counting, whatever becomes of its file. -/
theorem CountsAhead.encrypted {m : ℕ} {keys : KeyManager} {ix₀ ix ix' : BlobIndex}
    (h : CountsAhead w m) (hproc : (w.machine m).process = some ix₀)
    (hnum : ix.lastFileNum = ix₀.lastFileNum) (henc : ix.Encryptable)
    (hrepeats : ∀ f ∈ (w.machine m).failed, ix.itemsBuf = f.entries)
    {io : FileWrite} {folder : Folder} {r : Except PackfileError Unit}
    (hflush : ix.flush P keys (w.machine m).folder io = some (ix', folder, r))
    {process : Option BlobIndex} (hprocess : ∀ x ∈ process, x = ix') (packed : Bool) :
    CountsAhead ((w.recordUse P keys m ix).setMachine m { w.machine m with
      folder := folder, process := process, failed := (w.machine m).failedAfter ix io,
      packingCompleted := packed }) m := by
  have hlt : ix.lastFileNum < u32Max := (BlobIndex.flush_cases hflush).1
  have hmax := h.process ix₀ hproc
  rw [← hnum] at hmax
  have hused := h.used_flush P keys hproc hnum henc hrepeats
  have hwrite : ∀ content, maxFileNum (((w.machine m).folder.write
      (indexFileName (ix.lastFileNum + 1)) content).map Prod.fst) = ix.lastFileNum + 1 := by
    intro content
    have hle : (w.machine m).maxNum ≤ ix.lastFileNum + 1 := by
      rw [hmax]
      split <;> omega
    exact maxFileNum_write hlt content hle
  rw [BlobIndex.flush_of_encryptable io hlt henc] at hflush
  cases io with
  | ok =>
    obtain ⟨rfl, rfl, -⟩ := by simpa using hflush
    have hfailed : (w.machine m).failedAfter ix .ok = none := if_pos henc
    rw [hfailed]
    refine .created (hwrite _) (fun x hx => ?_) (fun u hu => (hused u hu).1) nofun
    rw [hprocess x hx]
    rfl
  | createFails =>
    obtain ⟨rfl, rfl, -⟩ := by simpa using hflush
    have hfailed : (w.machine m).failedAfter ix .createFails
        = some ⟨ix.itemsBuf, (w.machine m).failed.any FailedFlush.created⟩ := if_pos henc
    rw [hfailed]
    exact .notCreated rfl hmax (fun x hx => hprocess x hx ▸ rfl) hused
  | writeFails written =>
    obtain ⟨rfl, rfl, -⟩ := by simpa using hflush
    have hfailed : (w.machine m).failedAfter ix (.writeFails written)
        = some ⟨ix.itemsBuf, true⟩ := if_pos henc
    rw [hfailed]
    refine .created (hwrite _) (fun x hx => ?_) (fun u hu => (hused u hu).1) ?_
    · rw [hprocess x hx]
      rfl
    · intro f hf u hu hlast
      obtain rfl := Option.some.inj hf
      exact (hused u hu).2 hlast

/-- A flush goes on counting. -/
theorem CountsAhead.flushed {m : ℕ} {keys : KeyManager} {ix₀ ix ix' : BlobIndex}
    (h : CountsAhead w m) (hproc : (w.machine m).process = some ix₀)
    (hnum : ix.lastFileNum = ix₀.lastFileNum)
    (hrepeats : ix.Encryptable → ∀ f ∈ (w.machine m).failed, ix.itemsBuf = f.entries)
    {io : FileWrite} {folder : Folder} {r : Except PackfileError Unit}
    (hflush : ix.flush P keys (w.machine m).folder io = some (ix', folder, r))
    {process : Option BlobIndex} (hprocess : ∀ x ∈ process, x = ix') (packed : Bool) :
    CountsAhead ((w.recordUse P keys m ix).setMachine m { w.machine m with
      folder := folder, process := process, failed := (w.machine m).failedAfter ix io,
      packingCompleted := packed }) m := by
  by_cases henc : ix.Encryptable
  · exact h.encrypted hproc hnum henc (hrepeats henc) hflush hprocess packed
  · have hlt : ix.lastFileNum < u32Max := (BlobIndex.flush_cases hflush).1
    rw [BlobIndex.flush_of_not_encryptable io hlt henc] at hflush
    obtain ⟨rfl, rfl, -⟩ := by simpa using hflush
    have hfailed : (w.machine m).failedAfter ix io = (w.machine m).failed := if_neg henc
    rw [Machines.recordUse, if_neg henc, hfailed]
    constructor
    all_goals rw [Machines.machine_setMachine]
    · intro x hx
      obtain rfl := hprocess x hx
      rw [hnum]
      exact h.process ix₀ hproc
    · exact h.used
    · exact h.failed

/-- The machine has changed in nothing that counts. -/
theorem CountsAhead.keep {w' : Machines} {m : ℕ} (h : CountsAhead w m) (hused : w'.used = w.used)
    (hmax : (w'.machine m).maxNum = (w.machine m).maxNum)
    (hfailed : (w'.machine m).failed = (w.machine m).failed)
    (hproc : ∀ ix, (w'.machine m).process = some ix →
      ∃ ix₀, (w.machine m).process = some ix₀ ∧ ix.lastFileNum = ix₀.lastFileNum) :
    CountsAhead w' m := by
  refine ⟨?_, ?_, ?_⟩
  · intro ix hix
    obtain ⟨ix₀, hix₀, hnum⟩ := hproc ix hix
    rw [hmax, hfailed, hnum]
    exact h.process ix₀ hix₀
  · rw [hused, hmax, hfailed]
    exact h.used
  · rw [hused, hmax, hfailed]
    exact h.failed

theorem CountsAhead.keepMachine {m : ℕ} (h : CountsAhead w m) {M : Machine}
    (hmax : M.maxNum = (w.machine m).maxNum) (hfailed : M.failed = (w.machine m).failed)
    (hproc : ∀ ix, M.process = some ix →
      ∃ ix₀, (w.machine m).process = some ix₀ ∧ ix.lastFileNum = ix₀.lastFileNum) :
    CountsAhead (w.setMachine m M) m := by
  refine h.keep rfl ?_ ?_ ?_
  all_goals rw [Machines.machine_setMachine]
  · exact hmax
  · exact hfailed
  · exact hproc

/-- An index that has been loaded counts on from its folder; a file that it has read was whole. -/
theorem CountsAhead.opened {m : ℕ} (h : CountsAhead w m) {names : List FileName}
    (hnames : names.Perm ((w.machine m).folder.map Prod.fst)) {ix : BlobIndex}
    (hnum : ix.lastFileNum = maxFileNum names) :
    CountsAhead (w.setMachine m { w.machine m with
      process := some ix, failed := (w.machine m).failed.filter fun f => !f.created,
      packingCompleted := false }) m := by
  have hmax : ix.lastFileNum = (w.machine m).maxNum := hnum.trans (maxFileNum_perm hnames)
  refine ⟨?_, ?_, ?_⟩
  · intro x hx
    rw [Machines.machine_setMachine] at hx ⊢
    obtain rfl := Option.some.inj hx
    have hnone : ((w.machine m).failed.filter fun f => !f.created).any FailedFlush.created
        = false := by
      cases (w.machine m).failed with
      | none => rfl
      | some f => cases hf : f.created <;> simp [Option.filter, hf]
    rw [hnone]
    exact hmax.symm
  · intro u hu
    rw [Machines.machine_setMachine]
    refine (h.used u hu).imp_right ?_
    rintro ⟨hlast, f, hf, hcreated, hplain⟩
    exact ⟨hlast, f, by simp [hf, hcreated], hcreated, hplain⟩
  · intro f hf hcreated
    rw [Machines.machine_setMachine] at hf
    obtain ⟨-, hnot⟩ := Option.filter_eq_some_iff.mp hf
    simp [hcreated] at hnot

/-! ## 6. Runs -/

/-- Each number has one plaintext, and the machine that encrypts counts on. -/
structure Steady (P : Primitives) (secret : RootSecret) (w : Machines) : Prop where
  one : OnePlaintext P secret w
  counted : ∀ m, (∀ u ∈ w.used, u.machine = m) → CountsAhead w m

theorem Steady.start (P : Primitives) (secret : RootSecret) : Steady P secret .start where
  one := .start P secret
  counted m _ := ⟨by simp [Machines.start], by simp [Machines.start], by simp [Machines.start]⟩

/-- A step of one machine without an encryption. -/
theorem Steady.setMachine (h : Steady P secret w) {m : ℕ} {M : Machine}
    (hone : OnePlaintext P secret (w.setMachine m M))
    (hcounted : CountsAhead w m → CountsAhead (w.setMachine m M) m) :
    Steady P secret (w.setMachine m M) where
  one := hone
  counted j hj := by
    by_cases hjm : j = m
    · subst hjm
      exact hcounted (h.counted j hj)
    · have hsame : (w.setMachine m M).machine j = w.machine j :=
        Machines.machine_setMachine_ne hjm w M
      exact (h.counted j hj).keep rfl (by rw [hsame]) (by rw [hsame])
        fun ix hix => ⟨ix, hsame ▸ hix, rfl⟩

/-- A flush of the machine that encrypts, which repeats a flush that failed with the same
entries. -/
theorem Steady.flushed (h : Steady P secret w) {m : ℕ} {ix₀ ix ix' : BlobIndex}
    (hproc : (w.machine m).process = some ix₀) (hnum : ix.lastFileNum = ix₀.lastFileNum)
    (hok : Repeats w m ix) {io : FileWrite} {folder : Folder} {r : Except PackfileError Unit}
    (hflush : ix.flush P (.fromSecret P secret) (w.machine m).folder io = some (ix', folder, r))
    {process : Option BlobIndex} (hprocess : ∀ x ∈ process, x = ix') {packed : Bool}
    (hpacked : packed = true → process = none ∧ r = .ok ()) :
    Steady P secret ((w.recordUse P (.fromSecret P secret) m ix).setMachine m
      { w.machine m with
        folder := folder, process := process, failed := (w.machine m).failedAfter ix io,
        packingCompleted := packed }) where
  one := by
    refine h.one.flushed hproc hnum (fun henc u hu hlast => ?_) hflush hprocess hpacked _
    obtain ⟨hmachine, hrepeats⟩ := hok henc
    rcases (h.counted m hmachine).upTo hproc hrepeats u hu with hle | ⟨-, hplain⟩
    · omega
    · exact hplain
  counted j hj := by
    have hold : ∀ u ∈ w.used, u.machine = j :=
      fun u hu => hj u (used_subset_recordUse w P _ m ix u hu)
    by_cases hjm : j = m
    · subst hjm
      exact (h.counted j hold).flushed hproc hnum (fun henc => (hok henc).2) hflush hprocess packed
    · have hused : (w.recordUse P (.fromSecret P secret) m ix).used = w.used := by
        by_cases henc : ix.Encryptable
        · exact absurd (hj _ (mem_recordUse (w := w) (m := m) henc)).symm hjm
        · rw [Machines.recordUse, if_neg henc]
      have hother : (w.recordUse P (.fromSecret P secret) m ix).machine = w.machine := by
        unfold Machines.recordUse
        split <;> rfl
      refine (h.counted j hold).keep hused ?_ ?_ ?_
      all_goals rw [Machines.machine_setMachine_ne hjm, hother]
      exact fun x hx => ⟨x, hx, rfl⟩

/-- One step that flushes steadily keeps the invariant. -/
theorem steady_step (hrej : P.RejectsTruncated) {a : MachineAction} (h : Steady P secret w)
    (hok : FlushesSteadily w a) (hstep : machineStep P secret w a = some w') :
    Steady P secret w' := by
  cases a with
  | setup m =>
    have hM := h.one.machines m
    simp only [machineStep] at hstep
    split at hstep
    · obtain rfl := Option.some.inj hstep
      refine h.setMachine (h.one.setMachine m { hM with
        keys := fun keys hkeys => (Option.some.inj hkeys).symm }) fun hc => ?_
      exact hc.keepMachine rfl rfl fun ix hix => ⟨ix, hix, rfl⟩
    · cases hstep
  | openIndex m names files =>
    have hM := h.one.machines m
    simp only [machineStep] at hstep
    split at hstep
    · rename_i keys hkeys hproc
      obtain ⟨⟨hnames, hperm⟩, hstep⟩ := Option.ite_none_right_eq_some.mp hstep
      obtain rfl := hM.keys keys hkeys
      cases hnew : BlobIndex.new P (.fromSecret P secret) names files with
      | ok ix =>
        rw [hnew] at hstep
        obtain rfl := Option.some.inj hstep
        obtain ⟨items, -, hix⟩ := BlobIndex.new_ok hnew
        exact h.setMachine (h.one.opened hrej hnew hperm _) fun hc =>
          hc.opened hnames (by rw [hix])
      | error e =>
        rw [hnew] at hstep
        obtain rfl := Option.some.inj hstep
        refine h.setMachine (h.one.setMachine m { hM with
          packing := fun _ _ => rfl, packed := nofun }) fun hc => ?_
        exact hc.keepMachine rfl rfl fun ix hix => ⟨ix, hix, rfl⟩
    · cases hstep
  | push m entry io =>
    simp only [machineStep] at hstep
    split at hstep
    · rename_i keys ix hkeys hproc
      obtain rfl := (h.one.machines m).keys keys hkeys
      split at hstep
      · rename_i hfull
        obtain ⟨⟨ix', folder, r⟩, hflush, rfl⟩ := Option.map_eq_some_iff.mp hstep
        have hpacking := (h.one.machines m).packing ix hproc
        have hnum : (ix.buffer entry).lastFileNum = ix.lastFileNum := rfl
        exact h.flushed hproc hnum (hok ix hproc hfull) hflush
          (fun x hx => (Option.some.inj hx).symm) fun hp => by
            cases hpacking.symm.trans hp
      · obtain rfl := Option.some.inj hstep
        refine h.setMachine (h.one.buffered hproc entry) fun hc => hc.keepMachine rfl rfl ?_
        intro x hx
        obtain rfl := Option.some.inj hx
        exact ⟨ix, hproc, rfl⟩
    · cases hstep
  | finish m io packed =>
    simp only [machineStep] at hstep
    split at hstep
    · rename_i keys ix hkeys hproc
      obtain rfl := (h.one.machines m).keys keys hkeys
      obtain ⟨⟨ix', folder, r⟩, hflush, rfl⟩ := Option.map_eq_some_iff.mp hstep
      refine h.flushed hproc rfl (hok ix hproc) hflush (by simp) ?_
      intro hp
      exact ⟨rfl, of_decide_eq_true (Bool.and_eq_true_iff.mp hp).2⟩
    · cases hstep
  | crash m =>
    have hM := h.one.machines m
    obtain rfl := Option.some.inj hstep
    refine h.setMachine (h.one.setMachine m
      ⟨hM.keys, hM.written, nofun, nofun, nofun⟩) fun hc => ?_
    exact hc.keepMachine rfl rfl nofun
  | restore m =>
    obtain rfl := Option.some.inj hstep
    exact h
  | send m file =>
    simp only [machineStep] at hstep
    obtain ⟨⟨hpacked, hmem⟩, hstep⟩ := Option.ite_none_right_eq_some.mp hstep
    obtain ⟨num, hnum, rfl⟩ := Option.map_eq_some_iff.mp hstep
    exact ⟨h.one.sendFile hpacked hmem hnum, fun j hj => (h.counted j hj).keep rfl rfl rfl
      fun ix hix => ⟨ix, hix, rfl⟩⟩

/-- In every run in which one machine encrypts, and repeats the flushes that fail with the same
entries, no two plaintexts share the index key and a nonce, and no two contents are sent under one
number. -/
theorem index_nonce_fresh (hrej : P.RejectsTruncated)
    (h : Transition.Reach (machineStep P secret) FlushesSteadily .start w) : w.NonceFresh :=
  (h.invariant (Steady.start P secret) fun _ _ _ hi hok hst =>
    steady_step hrej hi hok hst).one.nonceFresh

end

/-- One backup on machine `m`, of an index with one entry, from a folder with these files. -/
def oneBackup (m : ℕ) (b : Byte) (files : Folder) (io : FileWrite) : List MachineAction :=
  [.openIndex m (files.map Prod.fst) files, .push m (FixedBytes.fill b, FixedBytes.fill b) .ok,
    .finish m io true]

/-- The file with number `num` that the backup writes. -/
def oneBackupFile (num : ℕ) (b : Byte) : FileName × Bytes :=
  (indexFileName num, sealedEntries .transparent (.fromSecret .transparent (FixedBytes.fill 5)) num
    [(FixedBytes.fill b, FixedBytes.fill b)])

instance (w : Machines) (m : ℕ) (ix : BlobIndex) : Decidable (Repeats w m ix) :=
  inferInstanceAs (Decidable (_ → _ ∧ _))

/-- `FlushesSteadily`, evaluated. -/
def flushesSteadily (w : Machines) : MachineAction → Bool
  | .push m entry _ => (w.machine m).process.all fun ix =>
    decide ((ix.buffer entry).Full → Repeats w m (ix.buffer entry))
  | .finish m _ _ => (w.machine m).process.all fun ix => decide (Repeats w m ix)
  | _ => true

theorem flushesSteadily_ok (w : Machines) (a : MachineAction) (h : flushesSteadily w a = true) :
    FlushesSteadily w a := by
  cases a with
  | push m entry io =>
    intro ix hix
    exact of_decide_eq_true (Option.all_eq_true _ _ |>.mp h ix hix)
  | finish m io packed =>
    intro ix hix
    exact of_decide_eq_true (Option.all_eq_true _ _ |>.mp h ix hix)
  | _ => trivial

/-- Three backups on one machine.  The index file of the second cannot be created; the third has
the same entries. -/
def threeBackups : List MachineAction :=
  [.setup 0] ++ oneBackup 0 8 [] .ok ++ [.send 0 (oneBackupFile 1 8)] ++
    oneBackup 0 9 [oneBackupFile 1 8] .createFails ++ oneBackup 0 9 [oneBackupFile 1 8] .ok ++
    [.send 0 (oneBackupFile 2 9)]

theorem index_nonce_fresh_three : ∃ w : Machines, w.NonceFresh ∧
    w.used.map IndexUse.number = [2, 2, 1] ∧
    w.sent = [(2, (oneBackupFile 2 9).2), (1, (oneBackupFile 1 8).2)] := by
  obtain ⟨w, hrun, hused, hsent⟩ : ∃ w, Transition.runWhen
      (machineStep .transparent (FixedBytes.fill 5)) flushesSteadily .start threeBackups = some w ∧
      w.used.map IndexUse.number = [2, 2, 1] ∧
      w.sent = [(2, (oneBackupFile 2 9).2), (1, (oneBackupFile 1 8).2)] := by
    decide +kernel
  exact ⟨w, index_nonce_fresh Primitives.transparent_rejectsTruncated
    (Transition.reach_of_runWhen flushesSteadily_ok hrun), hused, hsent⟩

/-- A second machine set up with the same secret. -/
def twoMachines : List MachineAction :=
  [.setup 0] ++ oneBackup 0 8 [] .ok ++ [.send 0 (oneBackupFile 1 8), .setup 1] ++
    oneBackup 1 9 [] .ok ++ [.send 1 (oneBackupFile 1 9)]

/-- Both machines encrypt and send an index file with the number 1. -/
theorem index_nonce_reused :
    ∃ w, Transition.run (machineStep .transparent (FixedBytes.fill 5)) .start twoMachines = some w ∧
      (∃ u ∈ w.used, ∃ v ∈ w.used, u.key = v.key ∧ u.nonce = v.nonce ∧
        u.plaintext ≠ v.plaintext) ∧
      w.sent = [(1, (oneBackupFile 1 9).2), (1, (oneBackupFile 1 8).2)] := by
  decide +kernel

end Backuwup.Client
