/-
# The local buffer of packfiles (`pack.rs`, `dir_packer.rs`, `send.rs`)

A backup writes packfiles into a folder of the client and deletes them as they are sent.  Three
pieces are to keep that folder small.  The packer counts what it has written, and once that is
over `MAX_PACKFILE_LOCAL_BUFFER_SIZE`, `add_blob` returns `ExceededBufferLimit`; who gets this
error waits if the backup is paused (`block_if_paused!`); and the sending task, at the top of its
loop, pauses the backup if more than the limit has been written and not sent.

The pieces count differently.  The packer lets the packfile pass that takes it over the limit, so
each task may still begin another one.  What it has written never decreases, and the orchestrator
learns of it only from the calls that return `Ok`: from then on its count stands still, while
packfiles are sent.  `local_buffer_exceeded` is a run in which the count that the sender looks at
stays within the limit and nobody is ever stopped.

`local_buffer_bounded` says when the three are enough.  A folder over the limit is no harm as long
as the tasks that are told of it find the backup paused: then each writes one packfile more at
most, and these fit into the bound together with the one that took the folder there.
-/
import Backuwup.Client.Orchestrator.Running
import Backuwup.Client.Packfile.FolderSize
import Backuwup.Client.Packfile.Transportable
import Mathlib.Algebra.Order.BigOperators.Group.List
import Mathlib.Data.List.Nodup

namespace Backuwup.Client.Buffering

open Transition

/-! ## 1. The property and its condition -/

/-- What the backup has written stays within the limit, what was there before, and one packfile
for each of the tasks. -/
def Bounded (k left : ℕ) (s : State) : Prop :=
  s.size ≤ maxPackfileLocalBufferSize + left + k * packfileMaxSize

/-- The bound has room for as many largest packfiles as there are tasks.  A packfile of this size
fits in once more. -/
def share (k : ℕ) : ℕ := k * packfileMaxSize / (k + 1)

/-- The size of the packfile that the next round writes. -/
def nextSize (m : Manager) : ℕ := packfileSize (nextPackfile m.index m.blobs)

/-- There is room for the largest packfile within the limit; or the packfile leaves room for one
of each task, and in a folder that is over the limit it is the first of its call, the packer has
counted that much, and `ok` holds. -/
def HasRoom (s : State) (t : ℕ) (ok : Manager → Prop) : Prop :=
  s.whole + packfileMaxSize ≤ s.limit ∨ ∀ x, s.world.session = some x →
    nextPackfile x.manager.index x.manager.blobs ≠ [] →
      nextSize x.manager ≤ share s.callers.length ∧ (s.limit < s.whole →
        (∀ i wrote, s.callers[t]? = some (.adding i wrote) → wrote = false) ∧
        maxPackfileLocalBufferSize < x.manager.packfilesSize ∧ ok x.manager)

/-- Neither the packfile nor a file of the index fails to be written. -/
def Recorded (io : PackfileIo) (m : Manager) : Prop :=
  io.file = .ok ∧ (∀ k, io.flush k = .ok) ∧ m.index.itemsBuf.length < maxEncryptableEntries

/-- A packfile is written where there is room, and nothing goes wrong with one over the limit.  A
task that has been told of the limit while the folder is over it finds the backup paused, and the
backup is not resumed then.  The final flush, which does not look at the limit, writes while there
is room for the largest packfile within the bound. -/
def InTime (s : State) : Action → Prop
  | .grow t _ _ => HasRoom s t fun _ => True
  | .call t (.write io) => HasRoom s t (Recorded io)
  | .flush (.grow _ _) | .flush (.write _) =>
    s.whole + packfileMaxSize ≤ s.limit + s.callers.length * packfileMaxSize
  | .block _ .shouldContinue => s.limit < s.whole → s.pause.paused = true
  | .send (.resume .store) => s.whole ≤ s.limit
  | _ => True

/-! ## 2. A round of `write_packfiles` -/

section

variable {P : Primitives} {keys : KeyManager} {s : State} {w : World} {m m' : Manager}
  {disk disk' : Disk} {io : PackfileIo} {r : Except PackfileError Bool} {n : ℕ}

/-- A packfile of so many bytes is created. -/
structure Creates (m : Manager) (io : PackfileIo) (r : Except PackfileError Bool) (n : ℕ) :
    Prop where
  next : n ≤ nextSize m
  max : n ≤ packfileMaxSize
  new : nextPackfile m.index m.blobs ≠ []
  /-- if nothing goes wrong with the files, the round tells whether the counter was over the limit
  before -/
  reports : Recorded io m → r = .ok (decide (maxPackfileLocalBufferSize < m.packfilesSize))

/-- A round creates at most one packfile. -/
theorem writePackfile_creates (hP : P.Lawful)
    (h : m.writePackfile P keys disk io = some (m', disk', r)) :
    disk'.packfiles = disk.packfiles ∨ ∃ content : Bytes, Creates m io r content.length ∧
      disk'.packfiles = Function.update disk.packfiles io.id (some content) := by
  obtain ⟨ix, draft, rest, taken, hfill, hfilled, hround⟩ := round_of_writePackfile h
  have hnext : draft = (nextPackfile m.index m.blobs).foldl PackfileDraft.add .empty :=
    fillDraft_eq hfill
  have hlength : ∀ {buffer}, serializePackfile P keys io.id draft = some buffer →
      buffer.length = nextSize m := fun hser => serializePackfile_length hP (hnext ▸ hser)
  have hnew : draft.blobCount ≠ 0 → nextPackfile m.index m.blobs ≠ [] := by
    intro hcount hnil
    rw [hnil] at hnext
    exact hcount (hnext ▸ rfl)
  cases hround with
  | nothing | notEncrypted | notCreated => exact Or.inl rfl
  | torn buffer n hcount hser hlen hnone hio =>
    have htake := List.length_take_le' n buffer
    refine Or.inr ⟨buffer.take n, ⟨htake.trans (hlength hser).le, htake.trans hlen, hnew hcount,
      fun hrecorded => ?_⟩, rfl⟩
    cases hio.symm.trans hrecorded.1
  | notRecorded buffer ix' folder e hcount hser hlen hnone hio hfin =>
    refine Or.inr ⟨buffer, ⟨(hlength hser).le, hlen, hnew hcount, fun hrecorded => ?_⟩, rfl⟩
    have hlt : ix.itemsBuf.length < maxEncryptableEntries := by
      rw [hfilled.index]
      exact hrecorded.2.2
    cases (finalizePackfile_ok hrecorded.2.1 hlt hfin).1
  | written buffer ix' folder hcount hser hlen =>
    exact Or.inr ⟨buffer, ⟨(hlength hser).le, hlen, hnew hcount, fun _ => rfl⟩, rfl⟩

/-- A round that has nothing to write is no error. -/
theorem writePackfile_nothing (hnil : nextPackfile m.index m.blobs = [])
    (h : m.writePackfile P keys disk io = some (m', disk', r)) : r = .ok false := by
  obtain ⟨ix, draft, rest, taken, hfill, hfilled, hround⟩ := round_of_writePackfile h
  have hnext : draft = (nextPackfile m.index m.blobs).foldl PackfileDraft.add .empty :=
    fillDraft_eq hfill
  rw [hnil] at hnext
  have hzero : draft.blobCount = 0 := by
    rw [hnext]
    rfl
  cases hround with
  | nothing => rfl
  | notEncrypted hcount | notCreated buffer hcount | torn buffer n hcount
    | notRecorded buffer ix' folder e hcount | written buffer ix' folder hcount =>
    exact absurd hzero hcount

theorem creates_of_created (hP : P.Lawful)
    (hwrite : m.writePackfile P keys s.world.disk io = some (m', disk, r)) (hdisk : w.disk = disk)
    (h : s.created w io.id = some n) : Creates m io r n := by
  obtain ⟨hnone, content, hcontent, rfl⟩ := State.created_eq_some.mp h
  subst hdisk
  rcases writePackfile_creates hP hwrite with hsame | ⟨content', hcreates, hput⟩
  · rw [hsame, hnone] at hcontent
    cases hcontent
  · rw [hput, Function.update_self] at hcontent
    obtain rfl := Option.some.inj hcontent
    exact hcreates

end

/-! ## 3. Who is over the limit -/

theorem share_mul (k : ℕ) : (k + 1) * share k ≤ k * packfileMaxSize := Nat.mul_div_le _ _

section

variable {P : Primitives} {keys : KeyManager} {s s' : State} {a : Action} {t u n : ℕ}
  {w : World} {id : PackfileId}

/-- The task is in a call that will report the limit, or on its way to look at the flag, or waits
for a channel that nobody has sent on. -/
def Held (s : State) (t : ℕ) : Prop :=
  (∃ i call, s.callers[t]? = some (Caller.adding i true) ∧ s.world.calls[i]? = some call ∧
    (call.pc = .writing true ∨ call.pc = .returned (.error .exceededBufferLimit))) ∨
  (s.callers[t]? = some Caller.blocking ∧ (s.pause.packer t = .running ∨
    s.pause.paused = true ∧ ∀ ch, s.pause.packer t = .waiting ch → ch ∉ s.pause.sent))

/-- Of the packfiles over the limit one has taken the folder there, and each of the others is of a
task that is held. -/
structure Controlled (s : State) : Prop where
  within : s.whole ≤ s.limit → s.writers = []
  nodup : s.writers.Nodup
  bound : s.whole ≤ s.limit + (1 + s.writers.length) * share s.callers.length
  held : ∀ t ∈ s.writers, Held s t

theorem Controlled.of_within (hwhole : s.whole ≤ s.limit) (hwriters : s.writers = []) :
    Controlled s where
  within _ := hwriters
  nodup := hwriters ▸ List.nodup_nil
  bound := hwhole.trans (Nat.le_add_right _ _)
  held t ht := by
    rw [hwriters] at ht
    cases ht

theorem controlled_start {k : ℕ} {disk : Disk} {ix : BlobIndex} {left : ℕ} {sized : Bool} :
    Controlled (start k disk ix left sized) :=
  .of_within (Nat.zero_le _) rfl

/-- The files are as before, and who was held still is. -/
theorem Controlled.of_eq (h : Controlled s) (hfiles : s'.files = s.files)
    (hwriters : s'.writers = s.writers) (hleft : s'.left = s.left)
    (hlength : s'.callers.length = s.callers.length)
    (hheld : s.limit < s.whole → ∀ t ∈ s.writers, Held s t → Held s' t) : Controlled s' := by
  have hwhole : s'.whole = s.whole := by simp only [State.whole, hfiles]
  have hlimit : s'.limit = s.limit := by simp only [State.limit, hleft]
  refine ⟨?_, ?_, ?_, fun t ht => ?_⟩
  · simpa only [hwhole, hlimit, hwriters] using h.within
  · simpa only [hwriters] using h.nodup
  · simpa only [hwhole, hlimit, hwriters, hlength] using h.bound
  · rw [hwriters] at ht
    refine hheld (not_le.mp fun hle => ?_) t ht (h.held t ht)
    rw [h.within hle] at ht
    cases ht

/-- A packfile is deleted. -/
theorem Controlled.filter (h : Controlled s) {p : PackfileId × ℕ → Bool}
    (hfiles : s'.files = s.files.filter p)
    (hwriters : s'.writers = if s'.whole ≤ s.limit then [] else s.writers)
    (hleft : s'.left = s.left) (hpause : s'.pause = s.pause) (hcallers : s'.callers = s.callers)
    (hcalls : s'.world.calls = s.world.calls) : Controlled s' := by
  have hwhole : s'.whole ≤ s.whole := by
    simp only [State.whole, hfiles]
    exact (List.filter_sublist.map _).sum_le_sum fun _ _ => Nat.zero_le _
  have hlimit : s'.limit = s.limit := by simp only [State.limit, hleft]
  by_cases hle : s'.whole ≤ s.limit
  · rw [if_pos hle] at hwriters
    exact .of_within (hlimit ▸ hle) hwriters
  · rw [if_neg hle] at hwriters
    refine ⟨fun hw => absurd (hlimit ▸ hw) hle, hwriters ▸ h.nodup, ?_, fun t ht => ?_⟩
    · rw [hwriters, hlimit, hcallers]
      exact hwhole.trans h.bound
    · rw [hwriters] at ht
      simpa only [Held, hcallers, hcalls, hpause] using h.held t ht

/-- A packfile is created for which there is room, or which takes the folder over the limit, or
whose writer is held from now on. -/
theorem Controlled.append (h : Controlled s)
    (hfiles : s'.files = s.files ++ [(id, n)])
    (hwriters : s'.writers = if s'.whole ≤ s.limit then []
      else if s.limit < s.whole then s.writers.insert t else s.writers)
    (hleft : s'.left = s.left) (hlength : s'.callers.length = s.callers.length)
    (hroom : s.whole + n ≤ s.limit ∨ n ≤ share s.callers.length ∧
      (s.limit < s.whole → t ∉ s.writers ∧ Held s' t ∧ ∀ u ∈ s.writers, Held s u → Held s' u)) :
    Controlled s' := by
  have hwhole : s'.whole = s.whole + n := by simp [State.whole, hfiles]
  have hlimit : s'.limit = s.limit := by simp only [State.limit, hleft]
  by_cases hle : s'.whole ≤ s.limit
  · rw [if_pos hle] at hwriters
    exact .of_within (hlimit ▸ hle) hwriters
  · obtain ⟨hn, hover⟩ := hroom.resolve_left (by omega)
    rw [if_neg hle] at hwriters
    by_cases hlt : s.limit < s.whole
    · obtain ⟨hnew, hheld, hothers⟩ := hover hlt
      rw [if_pos hlt, List.insert_of_not_mem hnew] at hwriters
      refine ⟨fun hw => absurd (hlimit ▸ hw) hle, ?_, ?_, fun u hu => ?_⟩
      · rw [hwriters]
        exact List.nodup_cons.mpr ⟨hnew, h.nodup⟩
      · have hbound := h.bound
        rw [hwriters, List.length_cons, hlimit, hwhole, hlength, ← Nat.add_assoc, Nat.succ_mul]
        omega
      · rw [hwriters] at hu
        rcases List.mem_cons.mp hu with rfl | hu
        · exact hheld
        · exact hothers u hu (h.held u hu)
    · -- nobody has written over the limit yet
      rw [if_neg hlt, h.within (not_lt.mp hlt)] at hwriters
      refine ⟨fun _ => hwriters, hwriters ▸ List.nodup_nil, ?_, fun u hu => ?_⟩
      · rw [hwriters, hlimit, hwhole, hlength, List.length_nil, Nat.add_zero, Nat.one_mul]
        omega
      · rw [hwriters] at hu
        cases hu

theorem Held.lt_length (h : Held s t) : t < s.callers.length := by
  rcases h with ⟨i, call, ht, -⟩ | ⟨ht, -⟩
  · exact (List.getElem?_eq_some_iff.mp ht).1
  · exact (List.getElem?_eq_some_iff.mp ht).1

theorem Controlled.writers_lt (h : Controlled s) : ∀ t ∈ s.writers, t < s.callers.length :=
  fun t ht => (h.held t ht).lt_length

/-- Different numbers below a bound are no more than the bound. -/
theorem length_le_of_lt {ts : List ℕ} {k : ℕ} (hnodup : ts.Nodup) (hlt : ∀ t ∈ ts, t < k) :
    ts.length ≤ k := by
  have hsub : ts ⊆ List.range k := fun t ht => List.mem_range.mpr (hlt t ht)
  simpa using (List.subperm_of_subset hnodup hsub).length_le

/-- As many packfiles are over the limit as there are tasks, and one. -/
theorem Controlled.whole_le (h : Controlled s) :
    s.whole ≤ s.limit + s.callers.length * packfileMaxSize := by
  have hlength := length_le_of_lt h.nodup h.writers_lt
  have hmul : (1 + s.writers.length) * share s.callers.length
      ≤ (s.callers.length + 1) * share s.callers.length := Nat.mul_le_mul_right _ (by omega)
  have hbound := h.bound
  have hshare := share_mul s.callers.length
  omega

/-- With the task that is about to write it is no more. -/
theorem Controlled.next_le (h : Controlled s) {i : ℕ} {wrote : Bool} {ok : Manager → Prop}
    {x : Session} (ht : s.callers[t]? = some (.adding i wrote)) (hx : s.world.session = some x)
    (hroom : HasRoom s t ok) (hnew : nextPackfile x.manager.index x.manager.blobs ≠ [])
    (hnext : n ≤ nextSize x.manager) (hmax : n ≤ packfileMaxSize) :
    s.whole + n ≤ s.limit + s.callers.length * packfileMaxSize := by
  rcases hroom with hroom | hroom
  · exact (Nat.add_le_add_left hmax _).trans (hroom.trans (Nat.le_add_right _ _))
  · obtain ⟨hsize, hover⟩ := hroom x hx hnew
    have hshare := share_mul s.callers.length
    have hlt : t < s.callers.length := (List.getElem?_eq_some_iff.mp ht).1
    by_cases hlimit : s.limit < s.whole
    · obtain ⟨hfirst, -⟩ := hover hlimit
      have hnot : t ∉ s.writers := by
        intro hmem
        rcases h.held t hmem with ⟨j, call, hj, -⟩ | ⟨hj, -⟩
        · obtain ⟨-, rfl⟩ := Caller.adding.inj (Option.some.inj (ht.symm.trans hj))
          cases hfirst i true ht
        · cases ht.symm.trans hj
      have hlength : (t :: s.writers).length ≤ s.callers.length := by
        refine length_le_of_lt (List.nodup_cons.mpr ⟨hnot, h.nodup⟩) fun u hu => ?_
        rcases List.mem_cons.mp hu with rfl | hu
        · exact hlt
        · exact h.writers_lt u hu
      rw [List.length_cons] at hlength
      have hmul : (1 + s.writers.length) * share s.callers.length
          ≤ s.callers.length * share s.callers.length := Nat.mul_le_mul_right _ (by omega)
      have hbound := h.bound
      rw [Nat.succ_mul] at hshare
      omega
    · have hone : share s.callers.length ≤ s.callers.length * packfileMaxSize := by
        rw [Nat.succ_mul] at hshare
        omega
      omega

/-- A task that nothing has happened to is still held. -/
theorem Held.of_eq (h : Held s u) (hcaller : s'.callers[u]? = s.callers[u]?)
    (hcalls : ∀ i wrote, s.callers[u]? = some (Caller.adding i wrote) →
      s'.world.calls[i]? = s.world.calls[i]?)
    (hpacker : s'.pause.packer u = s.pause.packer u)
    (hpaused : s.pause.paused = true → s'.pause.paused = true ∧ s'.pause.sent = s.pause.sent) :
    Held s' u := by
  rcases h with ⟨i, call, hu, hcall, hpc⟩ | ⟨hu, hrunning | ⟨hpause, hwaiting⟩⟩
  · exact Or.inl ⟨i, call, hcaller.trans hu, (hcalls i true hu).trans hcall, hpc⟩
  · exact Or.inr ⟨hcaller.trans hu, Or.inl (hpacker.trans hrunning)⟩
  · obtain ⟨hpause', hsent⟩ := hpaused hpause
    refine Or.inr ⟨hcaller.trans hu, Or.inr ⟨hpause', ?_⟩⟩
    rw [hpacker, hsent]
    exact hwaiting

/-! ## 4. The steps -/

theorem Controlled.call (h : Controlled s) (horderly : Orderly s) {e : CallEvent} {i : ℕ}
    {wrote : Bool} (ht : s.callers[t]? = some (Caller.adding i wrote))
    (hne : ∀ io, e ≠ .write io) (hw : managerStep P keys s.world (e.toAction i) = some w) :
    Controlled { s with world := w } := by
  refine h.of_eq rfl rfl rfl rfl fun _ u _ hu => ?_
  cases callMove_of_managerStep hw with
  | writes io => exact absurd rfl (hne io)
  | moves e call pc hcall hmove _ hnot hexceeds =>
    have hcalls : w.calls = s.world.calls.set i { call with pc := pc } := congrArg World.calls hmove
    by_cases hut : u = t
    · -- the call can only go on to report the limit
      subst hut
      rcases hu with ⟨j, call', hj, hcall', hpc⟩ | ⟨hu, -⟩
      · obtain ⟨rfl, rfl⟩ := Caller.adding.inj (Option.some.inj (ht.symm.trans hj))
        obtain rfl := Option.some.inj (hcall.symm.trans hcall')
        rcases hpc with hpc | hpc
        · refine Or.inl ⟨i, { call with pc := pc }, ht, ?_, Or.inr (hexceeds hpc)⟩
          exact (congrArg (·[i]?) hcalls).trans
            (List.getElem?_set_self (List.getElem?_eq_some_iff.mp hcall).1)
        · exact absurd hpc (hnot _)
      · rw [ht] at hu
        cases hu
    · exact hu.of_eq rfl (horderly.other_call ht hut hcalls) rfl fun hpaused => ⟨hpaused, rfl⟩

/-- A task in another call is held as before. -/
theorem Held.recorded (hu : Held s u) (horderly : Orderly s) {i : ℕ} {wrote : Bool} (hut : u ≠ t)
    (ht : s.callers[t]? = some (Caller.adding i wrote)) {call : AddCall}
    (hcalls : w.calls = s.world.calls.set i call) (id : PackfileId) (wrote' : Bool) :
    Held ((s.record t w id).setCaller t (.adding i wrote')) u := by
  have ht' : (s.record t w id).callers[t]? = some (Caller.adding i wrote) := by
    rw [record_callers]
    exact ht
  refine hu.of_eq ?_ ?_ ?_ ?_
  · rw [getElem?_setCaller ht', if_neg hut, record_callers]
  · intro j wrote'' hj
    simpa [State.setCaller] using horderly.other_call ht hut hcalls j wrote'' hj
  · simp [State.setCaller]
  · simp [State.setCaller]

/-- A task whose call will report the limit is held. -/
theorem held_recorded {i : ℕ} {wrote : Bool} (ht : s.callers[t]? = some (Caller.adding i wrote))
    {call call' : AddCall} (hcall : s.world.calls[i]? = some call)
    (hcalls : w.calls = s.world.calls.set i call') (hpc : call'.pc = .writing true)
    (id : PackfileId) : Held ((s.record t w id).setCaller t (.adding i true)) t := by
  have ht' : (s.record t w id).callers[t]? = some (Caller.adding i wrote) := by
    rw [record_callers]
    exact ht
  have hset : w.calls[i]? = some call' :=
    (congrArg (·[i]?) hcalls).trans (List.getElem?_set_self (List.getElem?_eq_some_iff.mp hcall).1)
  refine Or.inl ⟨i, call', ?_, ?_, Or.inl hpc⟩
  · rw [getElem?_setCaller ht', if_pos rfl]
  · simpa [State.setCaller] using hset

/-- Who is held in a call is so because it has written and will report the limit. -/
theorem Held.in_call (h : Held s t) {i : ℕ} {wrote : Bool}
    (ht : s.callers[t]? = some (Caller.adding i wrote)) {call : AddCall}
    (hcall : s.world.calls[i]? = some call) {exceeded : Bool} (hpc : call.pc = .writing exceeded) :
    wrote = true ∧ exceeded = true := by
  rcases h with ⟨j, call', hj, hcall', hpc'⟩ | ⟨hj, -⟩
  · obtain ⟨rfl, rfl⟩ := Caller.adding.inj (Option.some.inj (ht.symm.trans hj))
    obtain rfl := Option.some.inj (hcall.symm.trans hcall')
    rcases hpc' with hpc' | hpc'
    · exact ⟨rfl, AddPc.writing.inj (hpc.symm.trans hpc')⟩
    · cases hpc.symm.trans hpc'
  · cases ht.symm.trans hj

theorem Controlled.write (hP : P.Lawful) (h : Controlled s) (horderly : Orderly s)
    {io : PackfileIo} {i : ℕ} {wrote : Bool}
    (ht : s.callers[t]? = some (Caller.adding i wrote))
    (ha : HasRoom s t (Recorded io)) (hw : managerStep P keys s.world (.write i io) = some w) :
    Controlled ((s.record t w io.id).setCaller t
      (.adding i (wrote || (s.created w io.id).isSome))) := by
  cases callMove_of_managerStep (e := .write io) hw with
  | moves e call pc _ _ hne => exact absurd rfl (hne io)
  | writes io x call exceeded m disk r pc hx hcall hpc hwrite hr hdisk hcalls =>
    have hlength : ∀ c, ((s.record t w io.id).setCaller t c).callers.length
        = s.callers.length := by
      intro c
      rw [State.setCaller, List.length_set, record_callers]
    -- over the limit, who is held in a call has written and has nothing more to write
    have hself : s.limit < s.whole → t ∈ s.writers →
        ∀ wrote', Held ((s.record t w io.id).setCaller t (.adding i (wrote || wrote'))) t := by
      intro hlimit hmem wrote'
      obtain ⟨rfl, rfl⟩ := (h.held t hmem).in_call ht hcall hpc
      have hnil : nextPackfile x.manager.index x.manager.blobs = [] := by
        by_contra hnew
        obtain ⟨-, hover⟩ := ha.resolve_left (by omega) x hx hnew
        cases (hover hlimit).1 i true ht
      exact held_recorded ht hcall hcalls (hr _ (writePackfile_nothing hnil hwrite)) io.id
    have hkeeps : ∀ w' wrote', s.record t w io.id = s.settle w' →
        Controlled ((s.record t w io.id).setCaller t (.adding i (wrote || wrote'))) := by
      intro w' wrote' hsettled
      have hfiles : (s.record t w io.id).files = s.files := by
        rw [hsettled]
        rfl
      have hwriters : (s.record t w io.id).writers = s.writers := by
        rw [hsettled]
        rfl
      refine h.of_eq hfiles hwriters record_left (hlength _) fun hlimit u hmem hu => ?_
      by_cases hut : u = t
      · subst hut
        exact hself hlimit hmem wrote'
      · exact hu.recorded horderly hut ht hcalls io.id _
    cases hcreated : s.created w io.id with
    | none => exact hkeeps _ _ (record_of_none hcreated)
    | some n =>
      cases hdeleted : s.half.any Half.deleted with
      | true => exact hkeeps _ _ (record_of_deleted hcreated hdeleted)
      | false =>
        have hcreates := creates_of_created hP hwrite hdisk hcreated
        have hfiles : ((s.record t w io.id).setCaller t (.adding i (wrote || true))).files
            = s.files ++ [(io.id, n)] := by
          rw [record_of_some hcreated hdeleted]
          rfl
        refine h.append (t := t) hfiles ?_ record_left (hlength _) ?_
        · rw [record_of_some hcreated hdeleted]
          rfl
        · by_cases hroom : s.whole + packfileMaxSize ≤ s.limit
          · exact Or.inl ((Nat.add_le_add_left hcreates.max _).trans hroom)
          · obtain ⟨hsize, hover⟩ := ha.resolve_left hroom x hx hcreates.new
            refine Or.inr ⟨hcreates.next.trans hsize, fun hlimit => ?_⟩
            obtain ⟨hfirst, hcounter, hrecorded⟩ := hover hlimit
            have hwrote : wrote = false := hfirst i wrote ht
            have hnew : t ∉ s.writers := by
              intro hmem
              cases hwrote.symm.trans ((h.held t hmem).in_call ht hcall hpc).1
            have hexceeded : pc = .writing (exceeded || true) :=
              hr true ((hcreates.reports hrecorded).trans (by rw [decide_eq_true hcounter]))
            rw [Bool.or_true] at hexceeded
            refine ⟨hnew, ?_, fun u hmem hu => hu.recorded horderly ?_ ht hcalls io.id _⟩
            · rw [Option.isSome_some, Bool.or_true]
              exact held_recorded ht hcall hcalls hexceeded io.id
            · rintro rfl
              exact hnew hmem

theorem Controlled.grow (h : Controlled s) (hst : s.grow w id n = some s') : Controlled s' := by
  obtain ⟨-, rfl⟩ := State.grow_eq_some hst
  refine h.of_eq rfl rfl rfl rfl fun _ u _ hu => ?_
  exact hu.of_eq rfl (fun _ _ _ => rfl) rfl fun hpaused => ⟨hpaused, rfl⟩

theorem Controlled.send (h : Controlled s) (horderly : Orderly s) {e : SendEvent}
    (ha : InTime s (.send e)) (hst : sendStep s e = some s') : Controlled s' := by
  have hkeeps := sendKeeps_of_sendStep hst
  have hheld : s'.pause.packer = s.pause.packer →
      (s.pause.paused = true → s'.pause.paused = true ∧ s'.pause.sent = s.pause.sent) →
      ∀ t ∈ s.writers, Held s t → Held s' t := by
    intro hpacker hpaused t _ ht
    exact ht.of_eq (by rw [hkeeps.callers]) (fun _ _ _ => by rw [hkeeps.calls]) (by rw [hpacker])
      hpaused
  have hlength : s'.callers.length = s.callers.length := by rw [hkeeps.callers]
  cases sendMove_of_sendStep hst with
  | removes id _ hfiles _ hwriters hpause =>
    exact h.filter hfiles hwriters hkeeps.left hpause hkeeps.callers hkeeps.calls
  | stays hsame hpause =>
    rw [hpause] at hheld
    exact h.of_eq hsame.files hsame.writers hkeeps.left hlength fun _ =>
      hheld rfl fun hpaused => ⟨hpaused, rfl⟩
  | pauses a hsame hpause ha' =>
    refine h.of_eq hsame.files hsame.writers hkeeps.left hlength fun hlimit => ?_
    -- over the limit, the backup is not resumed
    have hne : a ≠ .resumeStore := by
      rintro rfl
      rcases ha' with ha' | ha' | ha' | ⟨r, rfl, hr⟩
      · cases ha'
      · cases ha'
      · cases ha'
      · cases r with
        | store => exact absurd ha (not_le.mpr hlimit)
        | lock => cases hr
        | send => cases hr
        | unlock => cases hr
    obtain ⟨hpacker, hstays⟩ := sender_cases hpause <| by
      rcases ha' with ha' | ha' | ha' | ⟨r, -, ha'⟩
      · exact Or.inl ha'
      · exact Or.inr (Or.inl ha')
      · exact Or.inr (Or.inr (Or.inl ha'))
      · exact Or.inr (Or.inr (Or.inr ⟨r, ha'⟩))
    exact hheld hpacker fun hpaused => hstays horderly.pause hpaused hne

/-- The call of a held task can only return the limit. -/
theorem Held.returned (h : Held s t) {i : ℕ} {wrote : Bool} {call : AddCall}
    {r : Except PackfileError (Option ℕ)} (ht : s.callers[t]? = some (.adding i wrote))
    (hcall : s.world.calls[i]? = some call) (hpc : call.pc = .returned r) :
    r = .error .exceededBufferLimit := by
  rcases h with ⟨j, call', hj, hcall', hpc'⟩ | ⟨hj, -⟩
  · obtain ⟨rfl, -⟩ := Caller.adding.inj (Option.some.inj (ht.symm.trans hj))
    obtain rfl := Option.some.inj (hcall.symm.trans hcall')
    rcases hpc' with hpc' | hpc'
    · cases hpc.symm.trans hpc'
    · exact AddPc.returned.inj (hpc.symm.trans hpc')
  · cases ht.symm.trans hj

/-- A held task in `block_if_paused!` finds the backup paused, and goes on only if it has been
notified. -/
theorem Held.block (h : Held s t) (horderly : Orderly s) {e : BlockEvent} {p : PauseState}
    (ht : s.callers[t]? = some .blocking) (ha : e = .shouldContinue → s.pause.paused = true)
    (hp : pauseStep s.pause (e.toAction t) = some p) :
    p.packer t ≠ .running ∧ p.paused = true ∧ ∀ ch, p.packer t = .waiting ch → ch ∉ p.sent := by
  obtain ⟨hflag, hsent, -, hgoes, hwaits⟩ := block_cases hp
  have hpaused : s.pause.paused = true := by
    rcases h with ⟨j, call, hj, -⟩ | ⟨-, hrunning | ⟨hpaused, -⟩⟩
    · cases ht.symm.trans hj
    · cases e with
      | shouldContinue => exact ha rfl
      | subscribe => simp [BlockEvent.toAction, pauseStep, hrunning] at hp
      | wake => simp [BlockEvent.toAction, pauseStep, hrunning] at hp
    · exact hpaused
  refine ⟨fun hrunning => ?_, hflag.trans hpaused, fun ch hch hin => ?_⟩
  · obtain ⟨ch, hch, hin⟩ := hgoes hpaused hrunning
    rcases h with ⟨j, call, hj, -⟩ | ⟨-, hrun | ⟨-, hwaiting⟩⟩
    · cases ht.symm.trans hj
    · cases hch.symm.trans hrun
    · exact hwaiting ch hch hin
  · -- the channel is new
    obtain rfl := hwaits ch hch
    exact absurd (horderly.pause.sent_lt _ (hsent ▸ hin)) (lt_irrefl _)

theorem Controlled.block (h : Controlled s) (horderly : Orderly s) {e : BlockEvent}
    {p : PauseState} (ht : s.callers[t]? = some .blocking) (ha : InTime s (.block t e))
    (hp : pauseStep s.pause (e.toAction t) = some p) :
    Controlled ({ s with pause := p }.setCaller t
      (if p.packer t = PackerPc.running then .idle else .blocking)) := by
  obtain ⟨hflag, hsent, hpacker, -, -⟩ := block_cases hp
  have hget : ∀ u, ({ s with pause := p }.setCaller t
      (if p.packer t = PackerPc.running then .idle else .blocking)).callers[u]?
        = if u = t then some (if p.packer t = PackerPc.running then .idle else .blocking)
          else s.callers[u]? := fun u => getElem?_setCaller (s := { s with pause := p }) ht
  refine h.of_eq rfl rfl rfl List.length_set fun hlimit u _ hu => ?_
  by_cases hut : u = t
  · subst hut
    obtain ⟨hstays, hpaused, hwaiting⟩ := hu.block horderly ht (fun he => by
      subst he
      exact ha hlimit) hp
    exact Or.inr ⟨by rw [hget, if_pos rfl, if_neg hstays], Or.inr ⟨hpaused, hwaiting⟩⟩
  · exact hu.of_eq ((hget u).trans (if_neg hut)) (fun _ _ _ => rfl) (hpacker u hut)
      fun hpaused => ⟨hflag.trans hpaused, hsent⟩

/-- A task stops or goes on, and it has not been held unless it is told of the limit. -/
theorem Controlled.setCaller (h : Controlled s) {c c' : Caller} (ht : s.callers[t]? = some c)
    (hwritten : s'.callers = s.callers.set t c') (hfiles : s'.files = s.files)
    (hwriters : s'.writers = s.writers) (hleft : s'.left = s.left) (hpause : s'.pause = s.pause)
    (hcalls : ∀ u i wrote, u ≠ t → s.callers[u]? = some (Caller.adding i wrote) →
      s'.world.calls[i]? = s.world.calls[i]?)
    (hheld : Held s t → Held s' t) : Controlled s' := by
  have hget : ∀ u, u ≠ t → s'.callers[u]? = s.callers[u]? := by
    intro u hut
    rw [hwritten, List.getElem?_set_ne (Ne.symm hut)]
  refine h.of_eq hfiles hwriters hleft (by rw [hwritten, List.length_set]) fun _ u _ hu => ?_
  by_cases hut : u = t
  · subst hut
    exact hheld hu
  · exact hu.of_eq (hget u hut) (fun i wrote => hcalls u i wrote hut) (by rw [hpause])
      fun hpaused => ⟨hpause ▸ hpaused, by rw [hpause]⟩

/-- One step keeps the folder in check, as long as `flush` has not begun. -/
theorem controlled_step (hP : P.Lawful) (h : Controlled s) (horderly : Orderly s)
    (ha : InTime s a) (hst : step P keys s a = some s') (hflush : ∀ e, a ≠ .flush e) :
    Controlled s' := by
  cases moved_of_step hst with
  | adds t kind data w call ht hw hcalls =>
    refine h.setCaller ht rfl rfl rfl rfl rfl (fun u i wrote _ hu => ?_) fun hheld => ?_
    · have hlt := horderly.called u i wrote hu
      exact (congrArg (·[i]?) hcalls).trans (List.getElem?_append_left hlt)
    · rcases hheld with ⟨j, call', hj, -⟩ | ⟨hj, -⟩
      · cases ht.symm.trans hj
      · cases ht.symm.trans hj
  | calls t e i wrote w ht hw hne => exact h.call horderly ht hne hw
  | writes t io i wrote w ht hw => exact h.write hP horderly ht ha hw
  | grows t id length i wrote w s' ht hw hgrow => exact h.grow hgrow
  | returnsOk t i wrote call written ht hcall hpc =>
    refine h.setCaller ht rfl rfl rfl rfl rfl (fun _ _ _ _ _ => rfl) fun hheld => ?_
    cases hheld.returned ht hcall hpc
  | returnsError t i wrote call x ht hcall hpc =>
    refine h.setCaller ht rfl rfl rfl rfl rfl (fun _ _ _ _ _ => rfl) fun hheld => ?_
    obtain rfl : x = .exceededBufferLimit := Except.error.inj (hheld.returned ht hcall hpc)
    refine Or.inr ⟨?_, Or.inl (horderly.running t (by simp [ht]))⟩
    rw [getElem?_setCaller ht, if_pos rfl, if_pos rfl]
  | blocks t e p ht hp => exact h.block horderly ht ha hp
  | flushes | flushGrows | flushWrites | flushIndexes => exact absurd rfl (hflush _)
  | completes =>
    refine h.of_eq rfl rfl rfl rfl fun _ _ _ hu => ?_
    exact hu.of_eq rfl (fun _ _ _ => rfl) rfl fun hpaused => ⟨hpaused, rfl⟩
  | learns time =>
    refine h.of_eq rfl rfl rfl rfl fun _ _ _ hu => ?_
    exact hu.of_eq rfl (fun _ _ _ => rfl) rfl fun hpaused => ⟨hpaused, rfl⟩
  | sends e s' hst => exact h.send horderly ha hst

/-! ## 5. Within the bound -/

/-- The manager is open and `flush` has not been called. -/
def Packing (s : State) : Prop := ∃ x, s.world.session = some x ∧ x.flushing = false

def InCall (s : State) (t : ℕ) : Prop := ∃ i wrote, s.callers[t]? = some (Caller.adding i wrote)

/-- While `flush` runs no task is. -/
def FlushesAlone (s : State) : Prop :=
  ∀ x, s.world.session = some x → x.flushing = true → ∀ t, ¬ InCall s t

/-- What is true throughout a run of `k` tasks. -/
structure InCheck (k left : ℕ) (s : State) : Prop where
  orderly : Orderly s
  alone : FlushesAlone s
  bounded : Bounded k left s
  controlled : Packing s → Controlled s
  length : s.callers.length = k
  left : s.left = left

/-- A step of the manager that is not `flush` leaves `flushing` as it is. -/
theorem FlushesAlone.managed (h : FlushesAlone s) {m : ManagerAction}
    (hm : m ≠ .flush ∧ ∀ names files size, m ≠ .openManager names files size)
    (hw : managerStep P keys s.world m = some w) (hsession : s'.world.session = w.session)
    (hcallers : ∀ t, InCall s' t →
      InCall s t ∨ ∃ x, s.world.session = some x ∧ x.flushing = false) : FlushesAlone s' := by
  intro y hy hflushing t ht
  obtain ⟨x, hx, hsame⟩ := flushing_of_managerStep hm hw (hsession ▸ hy)
  rcases hcallers t ht with ht' | ⟨x', hx', hnot⟩
  · exact h x hx (hsame.trans hflushing) t ht'
  · obtain rfl := Option.some.inj (hx.symm.trans hx')
    cases hnot.symm.trans (hsame.trans hflushing)

theorem FlushesAlone.of_eq (h : FlushesAlone s) (hsession : s'.world.session = s.world.session)
    (hcallers : ∀ t, InCall s' t → InCall s t) : FlushesAlone s' :=
  fun x hx hflushing t ht => h x (hsession ▸ hx) hflushing t (hcallers t ht)

/-- A task is left with something else than a call. -/
theorem inCall_of_setCaller {c c' : Caller} (ht : s.callers[t]? = some c)
    (hc' : ∀ i wrote, c' ≠ .adding i wrote) (hu : InCall (s.setCaller t c') u) : InCall s u := by
  obtain ⟨i, wrote, hu⟩ := hu
  rw [getElem?_setCaller ht] at hu
  split at hu
  · exact absurd (Option.some.inj hu) (hc' i wrote)
  · exact ⟨i, wrote, hu⟩

theorem CallEvent.inSession (e : CallEvent) (i : ℕ) : e.toAction i ≠ .flush ∧
    ∀ names files size, e.toAction i ≠ .openManager names files size := by
  cases e <;> exact ⟨fun h => (by cases h), fun _ _ _ h => (by cases h)⟩

theorem flushesAlone_step (h : FlushesAlone s) (hst : step P keys s a = some s') :
    FlushesAlone s' := by
  cases moved_of_step hst with
  | adds t kind data w call ht hw hcalls =>
    refine h.managed ⟨fun h => (by cases h), fun _ _ _ h => (by cases h)⟩ hw rfl fun u _ => ?_
    cases stepped_of_managerStep hw with
    | added x blob pc hx hflushing => exact Or.inr ⟨x, hx, hflushing⟩
    | moved session t call a pc hs hcall hmove => exact absurd hmove.of_call (by simp)
  | calls t e i wrote w ht hw hne => exact h.managed (e.inSession i) hw rfl fun _ hu => Or.inl hu
  | writes t io i wrote w ht hw =>
    refine h.managed (CallEvent.inSession (.write io) i) hw record_session fun u hu => Or.inl ?_
    obtain ⟨j, wrote', hu⟩ := hu
    have ht' : (s.record t w io.id).callers[t]? = some (.adding i wrote) := by
      rw [record_callers, ht]
    rw [getElem?_setCaller ht', record_callers] at hu
    split at hu
    · rename_i hut
      exact ⟨i, wrote, hut ▸ ht⟩
    · exact ⟨j, wrote', hu⟩
  | grows t id length i wrote w s' ht hw hgrow =>
    obtain ⟨-, rfl⟩ := State.grow_eq_some hgrow
    exact h.of_eq rfl fun _ hu => hu
  | returnsOk t i wrote call written ht =>
    exact h.of_eq rfl fun u => inCall_of_setCaller (s := { s with
      packfileBytesWritten := written.getD s.packfileBytesWritten }) ht (by simp)
  | returnsError t i wrote call x ht =>
    refine h.of_eq rfl fun u => inCall_of_setCaller ht fun k y hy => ?_
    split at hy <;> cases hy
  | blocks t e p ht hp =>
    refine h.of_eq rfl fun u => inCall_of_setCaller (s := { s with pause := p }) ht fun k y hy => ?_
    split at hy <;> cases hy
  | flushes w hall hw =>
    rintro x hx hflushing t ⟨i, wrote, ht⟩
    cases hall _ (List.mem_of_getElem? ht)
  | flushGrows id length w s' hw hgrow =>
    obtain ⟨-, rfl⟩ := State.grow_eq_some hgrow
    exact h.of_eq rfl fun _ hu => hu
  | flushWrites io w hw =>
    refine h.managed ⟨fun h => (by cases h), fun _ _ _ h => (by cases h)⟩ hw record_session ?_
    rintro u ⟨i, wrote, hu⟩
    rw [record_callers] at hu
    exact Or.inl ⟨i, wrote, hu⟩
  | flushIndexes io w hw =>
    exact h.managed ⟨fun h => (by cases h), fun _ _ _ h => (by cases h)⟩ hw rfl
      fun _ hu => Or.inl hu
  | completes => exact h.of_eq rfl fun _ hu => hu
  | learns time => exact h.of_eq rfl fun _ hu => hu
  | sends e s' hst =>
    have hkeeps := sendKeeps_of_sendStep hst
    refine h.of_eq hkeeps.session fun t ht => ?_
    rwa [InCall, hkeeps.callers] at ht

/-- While a task is in a call `flush` does not run. -/
theorem FlushesAlone.packing (h : FlushesAlone s) {x : Session} (ht : InCall s t)
    (hx : s.world.session = some x) : Packing s :=
  ⟨x, hx, eq_false_of_ne_true fun hflushing => h x hx hflushing t ht⟩

/-- Only a new session begins without `flush`, so a backup that is packing has been. -/
theorem packing_of_step (hst : step P keys s a = some s') (h : Packing s') : Packing s := by
  obtain ⟨y, hy, hflushing⟩ := h
  have hmanaged : ∀ {m w}, (m ≠ .flush ∧ ∀ names files size, m ≠ .openManager names files size) →
      managerStep P keys s.world m = some w → w.session = some y → Packing s := by
    intro m w hm hw hy
    obtain ⟨x, hx, hsame⟩ := flushing_of_managerStep hm hw hy
    exact ⟨x, hx, hsame.trans hflushing⟩
  cases moved_of_step hst with
  | adds t kind data w call ht hw hcalls =>
    exact hmanaged ⟨fun h => (by cases h), fun _ _ _ h => (by cases h)⟩ hw hy
  | calls t e i wrote w ht hw hne => exact hmanaged (e.inSession i) hw hy
  | writes t io i wrote w ht hw =>
    exact hmanaged (CallEvent.inSession (.write io) i) hw (record_session.symm.trans hy)
  | grows t id length i wrote w s' ht hw hgrow =>
    obtain ⟨-, rfl⟩ := State.grow_eq_some hgrow
    exact ⟨y, hy, hflushing⟩
  | flushes w hall hw =>
    cases stepped_of_managerStep hw with
    | flushes x hx =>
      obtain rfl := Option.some.inj hy
      cases hflushing
    | moved session t call a pc hs hcall hmove => exact absurd hmove.of_call (by simp)
  | flushGrows id length w s' hw hgrow =>
    obtain ⟨-, rfl⟩ := State.grow_eq_some hgrow
    exact ⟨y, hy, hflushing⟩
  | flushWrites io w hw =>
    exact hmanaged ⟨fun h => (by cases h), fun _ _ _ h => (by cases h)⟩ hw
      (record_session.symm.trans hy)
  | flushIndexes io w hw =>
    exact hmanaged ⟨fun h => (by cases h), fun _ _ _ h => (by cases h)⟩ hw hy
  | returnsOk | returnsError | blocks | completes | learns => exact ⟨y, hy, hflushing⟩
  | sends e s' hst => exact ⟨y, (sendKeeps_of_sendStep hst).session.symm.trans hy, hflushing⟩

theorem not_packing_of_flush {e : FlushEvent} (hst : step P keys s (.flush e) = some s') :
    ¬ Packing s' := by
  intro hpacking
  obtain ⟨x, hx, hflushing⟩ := packing_of_step hst hpacking
  have hwrite : ∀ {io w}, managerStep P keys s.world (.flushWrite io) = some w → False := by
    intro io w hw
    cases stepped_of_managerStep hw with
    | flushWrote y io m disk e hy htrue | flushFailed y io m disk e hy htrue =>
      obtain rfl := Option.some.inj (hx.symm.trans hy)
      cases hflushing.symm.trans htrue
    | moved session t call a pc hs hcall hmove => exact absurd hmove.of_call (by simp)
  cases moved_of_step hst with
  | flushes w hall hw =>
    obtain ⟨y, hy, hnot⟩ := hpacking
    cases stepped_of_managerStep hw with
    | flushes x hx =>
      obtain rfl := Option.some.inj hy
      cases hnot
    | moved session t call a pc hs hcall hmove => exact absurd hmove.of_call (by simp)
  | flushGrows id length w s' hw => exact hwrite hw
  | flushWrites io w hw => exact hwrite hw
  | flushIndexes io w hw =>
    cases stepped_of_managerStep hw with
    | flushedIndex y io ix folder r hy htrue =>
      obtain rfl := Option.some.inj (hx.symm.trans hy)
      cases hflushing.symm.trans htrue
    | moved session t call a pc hs hcall hmove => exact absurd hmove.of_call (by simp)

/-- A round adds one packfile at most. -/
theorem record_whole_le (hn : ∀ n', s.created w id = some n' → n' ≤ n) :
    (s.record t w id).whole ≤ s.whole + n := by
  cases hcreated : s.created w id with
  | none =>
    rw [record_of_none hcreated]
    exact Nat.le_add_right _ _
  | some n' =>
    cases hdeleted : s.half.any Half.deleted with
    | true =>
      rw [record_of_deleted hcreated hdeleted]
      exact Nat.le_add_right _ _
    | false =>
      rw [record_of_some hcreated hdeleted]
      have hle := hn n' hcreated
      simp only [State.whole, State.setFiles, State.settle, List.map_append, List.sum_append,
        List.map_cons, List.map_nil, List.sum_singleton]
      omega

theorem record_size : (s.record t w id).size = (s.record t w id).whole := by
  rw [State.size, State.part, record_half]
  rfl

theorem part_delete (id : PackfileId) (half : Option Half) :
    ((half.map (Half.delete id)).elim 0 fun h => if h.deleted then 0 else h.length)
      ≤ half.elim 0 fun h => if h.deleted then 0 else h.length := by
  cases half with
  | none => exact le_refl _
  | some h =>
    simp only [Option.map_some, Option.elim_some, Half.delete]
    split
    · exact Nat.zero_le _
    · exact le_refl _

/-- A step of `send` makes the folder no larger. -/
theorem size_send {e : SendEvent} (hst : sendStep s e = some s') : s'.size ≤ s.size := by
  have hle : SameFiles s s' → s'.size ≤ s.size := fun hsame => by
    rw [State.size, State.whole, State.part, hsame.files, hsame.half]
    exact le_refl _
  cases sendMove_of_sendStep hst with
  | removes id _ hfiles hhalf =>
    refine Nat.add_le_add ?_ ?_
    · simp only [State.whole, hfiles]
      exact (List.filter_sublist.map _).sum_le_sum fun _ _ => Nat.zero_le _
    · rw [State.part, hhalf]
      exact part_delete id s.half
  | pauses a hsame => exact hle hsame
  | stays hsame => exact hle hsame

theorem grow_size_le (hst : s.grow w id n = some s') : s'.size ≤ s.whole + n := by
  obtain ⟨-, rfl⟩ := State.grow_eq_some hst
  refine Nat.add_le_add_left ?_ _
  change (if s.half.any Half.deleted then 0 else n) ≤ n
  split
  · exact Nat.zero_le _
  · exact le_refl _

/-- Room for the largest packfile within the bound is room for the next. -/
theorem flushed_le (hP : P.Lawful) {io : PackfileIo}
    (hw : managerStep P keys s.world (.flushWrite io) = some w) {n' : ℕ}
    (hcreated : s.created w io.id = some n') : n' ≤ packfileMaxSize := by
  cases stepped_of_managerStep hw with
  | flushWrote x io m disk e hx _ hwrite => exact (creates_of_created hP hwrite rfl hcreated).max
  | flushFailed x io m disk e hx _ hwrite => exact (creates_of_created hP hwrite rfl hcreated).max
  | moved session t call a pc hs hcall hmove => exact absurd hmove.of_call (by simp)

/-- One step keeps the folder within the bound. -/
theorem size_step (hP : P.Lawful) (horderly : Orderly s) (halone : FlushesAlone s)
    (hsize : s.size ≤ s.limit + s.callers.length * packfileMaxSize)
    (hcontrolled : Packing s → Controlled s) (ha : InTime s a) (hst : step P keys s a = some s') :
    s'.size ≤ s.limit + s.callers.length * packfileMaxSize := by
  obtain ⟨hlength, hleft⟩ := fixed_step hst
  cases moved_of_step hst with
  | adds | calls | returnsOk | returnsError | blocks | flushes | flushIndexes | completes
    | learns => exact hsize
  | writes t io i wrote w ht hw =>
    have hpacking : Packing s := by
      cases callMove_of_managerStep (e := .write io) hw with
      | moves e call pc _ _ hne => exact absurd rfl (hne io)
      | writes io x call exceeded m disk r pc hx => exact halone.packing ⟨i, wrote, ht⟩ hx
    have hcontrolled' := (controlled_step hP (hcontrolled hpacking) horderly ha hst
      fun e he => by cases he).whole_le
    have hlimit : ∀ c, ((s.record t w io.id).setCaller t c).limit = s.limit := by
      intro c
      simp only [State.limit, State.setCaller, record_left]
    rw [hlimit, hlength] at hcontrolled'
    refine le_trans (le_of_eq ?_) hcontrolled'
    exact record_size
  | grows t id length i wrote w s' ht hw hgrow =>
    obtain ⟨⟨size, hcreated, hle⟩, -⟩ := State.grow_eq_some hgrow
    cases callMove_of_managerStep (e := .write ⟨id, .ok, fun _ => .ok⟩) hw with
    | moves e call pc _ _ hne => exact absurd rfl (hne _)
    | writes io x call exceeded m disk r pc hx hcall hpc hwrite hr hdisk =>
      have hcreates := creates_of_created hP hwrite hdisk hcreated
      have hpacking : Packing s := halone.packing ⟨i, wrote, ht⟩ hx
      have hnext := (hcontrolled hpacking).next_le ht hx (show HasRoom s t fun _ => True from ha)
        hcreates.new (hle.trans hcreates.next) (hle.trans hcreates.max)
      exact (grow_size_le hgrow).trans hnext
  | flushGrows id length w s' hw hgrow =>
    obtain ⟨⟨size, hcreated, hle⟩, -⟩ := State.grow_eq_some hgrow
    have hmax := hle.trans (flushed_le hP hw hcreated)
    exact (grow_size_le hgrow).trans ((Nat.add_le_add_left hmax _).trans ha)
  | flushWrites io w hw =>
    rw [record_size]
    exact (record_whole_le fun n' => flushed_le hP hw).trans ha
  | sends e s' hst => exact (size_send hst).trans hsize

theorem inCheck_start {k left : ℕ} {disk : Disk} {ix : BlobIndex} {sized : Bool} :
    InCheck k left (start k disk ix left sized) where
  orderly := orderly_start
  alone x hx hflushing := by
    obtain rfl := Option.some.inj hx
    cases hflushing
  bounded := Nat.zero_le _
  controlled _ := controlled_start
  length := List.length_replicate
  left := rfl

theorem inCheck_step (hP : P.Lawful) {k left : ℕ} (h : InCheck k left s) (ha : InTime s a)
    (hst : step P keys s a = some s') : InCheck k left s' := by
  obtain ⟨hlength, hleft⟩ := fixed_step hst
  have hsize := size_step hP h.orderly h.alone (by
    rw [State.limit, h.left, h.length]
    exact h.bounded) h.controlled ha hst
  rw [State.limit, h.left, h.length] at hsize
  refine ⟨orderly_step h.orderly hst, flushesAlone_step h.alone hst, hsize, fun hpacking => ?_,
    hlength.trans h.length, hleft.trans h.left⟩
  have hcontrolled := h.controlled (packing_of_step hst hpacking)
  refine controlled_step hP hcontrolled h.orderly ha hst fun e he => ?_
  subst he
  exact not_packing_of_flush hst hpacking

end

/-! ## 6. Chunks that fill a packfile each -/

/-- The first byte of the `n`-th chunk. -/
def chunkByte (n : ℕ) : Byte := Fin.ofNat 256 n

def chunkHash (n : ℕ) : BlobHash := ⟨chunkByte n :: noise n 31, by simp⟩

def chunkId (n : ℕ) : PackfileId := .fill (chunkByte n)

/-- The I/O of the packfile of the chunk succeeds. -/
def chunkIo (n : ℕ) : PackfileIo := ⟨chunkId n, .ok, fun _ => .ok⟩

def chunkPackfileSize : ℕ := 3145821

/-- The `n`-th chunk, 3 MiB, and its blob, which is no shorter. -/
structure Chunk (n : ℕ) (data : Bytes) (blob : BlobEncrypted) : Prop where
  length : data.length = blobMaxUncompressedSize
  hash : Primitives.transparent.hash data = chunkHash n
  encrypted : compressEncryptBlob .transparent sampleKeys ⟨chunkHash n, .fileChunk, data⟩
    (.fill 0) = some blob
  blobHash : blob.hash = chunkHash n
  blobKind : blob.kind = .fileChunk
  blobLength : blob.data.length = 3145744

theorem exists_chunk (n : ℕ) : ∃ data blob, Chunk n data blob := by
  obtain ⟨data, hdata⟩ : ∃ data, data = chunkByte n :: noise n (blobMaxUncompressedSize - 1) :=
    ⟨_, rfl⟩
  have hlen : data.length = blobMaxUncompressedSize := by
    rw [hdata, List.length_cons, length_noise]
    rfl
  have hsize : data.length ≤ aesGcmMaxPlaintext := by
    rw [hlen]
    decide
  have hblob := Primitives.transparent_lawful.encrypt_length
    (blobKey .transparent sampleKeys (chunkHash n)) (.fill 0) data hsize
  rw [hlen] at hblob
  refine ⟨data, ⟨chunkHash n, .fileChunk, _, .fill 0⟩, hlen, ?_, ?_, rfl, rfl, hblob⟩
  · refine FixedBytes.ext' ?_
    simp only [Primitives.transparent, chunkHash]
    rw [List.take_append_of_le_length (by rw [hlen]; decide), hdata, List.take_succ_cons,
      take_noise (by decide)]
  · have hcompress : Primitives.transparent.compress data = data := rfl
    rw [compressEncryptBlob, hcompress, Primitives.encryptInPlace, if_pos hsize, Option.map_some]

theorem fill_inj {m : ℕ} [NeZero m] {a b : Byte}
    (h : (FixedBytes.fill a : FixedBytes m) = .fill b) : a = b := by
  have hbytes : List.replicate m a = List.replicate m b := congrArg FixedBytes.bytes h
  exact (List.replicate_inj.mp hbytes).2.resolve_left (NeZero.ne m)

theorem chunkByte_inj {i j : ℕ} (hi : i < 256) (hj : j < 256) (h : chunkByte i = chunkByte j) :
    i = j := by
  have hval := congrArg Fin.val h
  simp only [chunkByte, Fin.ofNat] at hval
  omega

theorem chunkHash_inj {i j : ℕ} (hi : i < 256) (hj : j < 256) (h : chunkHash i = chunkHash j) :
    i = j :=
  chunkByte_inj hi hj (List.cons.inj (congrArg FixedBytes.bytes h)).1

def chunkHeader (n : ℕ) : List PackfileHeaderBlob := [⟨chunkHash n, .fileChunk, .zstd, 3145744, 0⟩]

theorem length_chunkHeader (n : ℕ) : (headerCodec.enc (chunkHeader n)).length = 41 := by
  have hsplit : headerCodec.enc (chunkHeader n)
      = Bincode.varintEnc 1 ++ ((chunkHash n).bytes ++ (Bincode.varintEnc 0 ++
        (Bincode.varintEnc 1 ++ (Bincode.varintEnc 3145744 ++ Bincode.varintEnc 0)))) := by
    simp [chunkHeader, headerCodec, Bincode.varintVec, Codec.list, Codec.encAll, headerBlobCodec,
      Codec.iso, Codec.prod, FixedBytes.codec, Bincode.varintEnum, Codec.partialIso,
      Bincode.varint, BlobKind.tag, CompressionKind.tag]
  rw [hsplit]
  simp [Bincode.varintEnc, (chunkHash n).length_eq]

section

variable {n : ℕ} {data : Bytes} {blob : BlobEncrypted}

theorem Chunk.header (h : Chunk n data blob) :
    (PackfileDraft.add .empty blob).header = chunkHeader n := by
  simp only [PackfileDraft.add, h.blobHash, h.blobKind, h.blobLength]
  rfl

theorem Chunk.bytesWritten (h : Chunk n data blob) :
    (PackfileDraft.add .empty blob).bytesWritten = 3145756 := by
  simp only [PackfileDraft.add, h.blobLength]
  rfl

theorem Chunk.serializePackfile (h : Chunk n data blob) (id : PackfileId) : ∃ buffer,
    serializePackfile .transparent sampleKeys id (.add .empty blob) = some buffer ∧
      buffer.length = chunkPackfileSize := by
  have hmax : (headerCodec.enc (chunkHeader n)).length ≤ aesGcmMaxPlaintext := by
    rw [length_chunkHeader]
    decide
  have hcipher := Primitives.transparent_lawful.encrypt_length (headerKey .transparent sampleKeys)
    id _ hmax
  have hdata : (PackfileDraft.add .empty blob).data.length = 3145756 := by
    rw [← (Laid.empty.add blob).written, h.bytesWritten]
  refine ⟨_, by rw [Client.serializePackfile, h.header, Primitives.encryptInPlace, if_pos hmax,
    Option.map_some], ?_⟩
  simp only [List.length_append, leBytes_length, hcipher, hdata, length_chunkHeader,
    chunkPackfileSize]

end

/-- The index after the first `n` chunks. -/
def chunkIndex : ℕ → BlobIndex
  | 0 => ⟨[], [], [], 0, false⟩
  | n + 1 => ((chunkIndex n).addToPackfile (chunkHash n)).1.buffer (chunkHash n, chunkId n)

theorem chunkIndex_items (n : ℕ) : (chunkIndex n).items = [] := by
  induction n with
  | zero => rfl
  | succ n ih =>
    simp only [chunkIndex, BlobIndex.buffer, BlobIndex.addToPackfile]
    split
    · exact ih
    · exact ih

theorem length_chunkIndex (n : ℕ) : (chunkIndex n).itemsBuf.length = n := by
  induction n with
  | zero => rfl
  | succ n ih =>
    simp only [chunkIndex, BlobIndex.buffer, BlobIndex.addToPackfile, List.length_append,
      List.length_singleton]
    split
    · rw [ih]
    · rw [ih]

theorem mem_chunkIndex {n : ℕ} {hash : BlobHash} (h : hash ∈ (chunkIndex n).blobsQueued) :
    ∃ i < n, hash = chunkHash i := by
  induction n with
  | zero => cases h
  | succ n ih =>
    have hmem : hash = chunkHash n ∨ hash ∈ (chunkIndex n).blobsQueued := by
      simp only [chunkIndex, BlobIndex.buffer, BlobIndex.addToPackfile] at h
      split at h
      · exact Or.inr h
      · exact List.mem_cons.mp h
    rcases hmem with rfl | h
    · exact ⟨n, Nat.lt_succ_self n, rfl⟩
    · obtain ⟨i, hi, rfl⟩ := ih h
      exact ⟨i, hi.trans (Nat.lt_succ_self n), rfl⟩

/-- The next chunk is new. -/
theorem chunkHash_not_mem {n : ℕ} (hn : n < 256) : chunkHash n ∉ (chunkIndex n).blobsQueued := by
  intro h
  obtain ⟨i, hi, heq⟩ := mem_chunkIndex h
  have hni := chunkHash_inj hn (hi.trans hn) heq
  omega

theorem isBlobDuplicate_chunk {n : ℕ} (hn : n < 256) :
    (chunkIndex n).isBlobDuplicate (chunkHash n) = false := by
  have hitems : (chunkIndex n).findPackfile (chunkHash n) = none := by
    rw [BlobIndex.findPackfile, chunkIndex_items]
    rfl
  rw [BlobIndex.isBlobDuplicate, hitems, decide_eq_false (chunkHash_not_mem hn)]
  rfl

theorem Chunk.writePackfile {n : ℕ} {data : Bytes} {blob : BlobEncrypted} {disk : Disk}
    (h : Chunk n data blob) (hn : n < 256)
    (hnone : disk.packfiles (chunkId n) = none) :
    ∃ content : Bytes, content.length = chunkPackfileSize ∧
      Manager.writePackfile .transparent sampleKeys
        ⟨[blob], chunkIndex n, n * chunkPackfileSize⟩ disk (chunkIo n)
          = some (⟨[], chunkIndex (n + 1), (n + 1) * chunkPackfileSize⟩,
            disk.put (chunkId n) content,
            .ok (decide (maxPackfileLocalBufferSize < n * chunkPackfileSize))) := by
  obtain ⟨content, hser, hlen⟩ := h.serializePackfile (chunkId n)
  refine ⟨content, hlen, ?_⟩
  have hfull : (PackfileDraft.add .empty blob).Full := by
    refine Or.inl ?_
    rw [h.bytesWritten]
    decide
  have hadd : (chunkIndex n).addToPackfile (chunkHash n)
      = (((chunkIndex n).addToPackfile (chunkHash n)).1, .ok ()) := by
    rw [BlobIndex.addToPackfile, if_neg (chunkHash_not_mem hn)]
  have hfill : fillDraft (chunkIndex n) .empty [blob]
      = (((chunkIndex n).addToPackfile (chunkHash n)).1, .add .empty blob, [],
        .ok ()) := by
    rw [fillDraft, h.blobHash, isBlobDuplicate_chunk hn, hadd]
    exact if_pos hfull
  have hsize : ¬ packfileMaxSize < content.length := by
    rw [hlen]
    decide
  have hcreate : disk.create (chunkId n) content .ok = (disk.put (chunkId n) content, .ok ()) := by
    simp only [Disk.create, hnone]
  have hpush : ∀ folder, BlobIndex.push .transparent sampleKeys
      ((chunkIndex n).addToPackfile (chunkHash n)).1 folder (chunkHash n, chunkId n) .ok
        = some (chunkIndex (n + 1), folder, .ok ()) := by
    intro folder
    have hfull' : ¬ (chunkIndex (n + 1)).Full := by
      simp only [BlobIndex.Full, length_chunkIndex, maxFileEntries]
      omega
    exact if_neg hfull'
  have hcount : ¬ (PackfileDraft.add .empty blob).blobCount = 0 := Nat.succ_ne_zero _
  have hblobs : (PackfileDraft.add .empty blob).blobs = [chunkHash n] :=
    congrArg (fun hash => [hash]) h.blobHash
  have hsum : n * chunkPackfileSize + content.length = (n + 1) * chunkPackfileSize := by
    rw [hlen, Nat.succ_mul]
  simp only [Manager.writePackfile, hfill, if_neg hcount, chunkIo, hser, if_neg hsize, hcreate,
    hblobs, finalizePackfile, hpush, hsum]

/-- The steps of the tasks that add blobs.  Who gets the mutexes finds a new blob, and no total is
stored between a pass of `send` and the check after it. -/
def OfTask (s : State) : Action → Prop
  | .call _ .lock => ∀ x, s.world.session = some x → x.manager.HasNew
  | .returned _ => s.sender.pc ≠ .sent
  | .add .. | .call .. | .block .. => True
  | _ => False

/-- Those of them that write nothing and store nothing. -/
def Queues (s : State) : Action → Prop
  | .call _ .lock => ∀ x, s.world.session = some x → x.manager.HasNew
  | .call _ (.write _) => False
  | .add .. | .call .. => True
  | _ => False

theorem Queues.ofTask {s : State} {a : Action} (h : Queues s a) : OfTask s a := by
  cases a with
  | add => trivial
  | call t e =>
    cases e with
    | lock => exact h
    | check | enqueue | trigger | write | unlock => trivial
  | grow | returned | block | flush | complete | matched | send => cases h

/-- How far the packfiles of `n` chunks have taken the packer over the limit; it is the 34th that
does. -/
def chunkExcess (n : ℕ) : ℕ := min n 34 * chunkPackfileSize - maxPackfileLocalBufferSize

/-- A backup of one task that has written the first `n` chunks, with the sender at the top of its
loop. -/
def packing (disk : Disk) (calls : List AddCall) (blobs : List BlobEncrypted) (n written sent : ℕ)
    (caller : Caller) (files : List (PackfileId × ℕ)) (writers : List ℕ) : State where
  world := ⟨disk, [], calls, some ⟨⟨blobs, chunkIndex n, n * chunkPackfileSize⟩, false⟩, false⟩
  pause := .start
  packfileBytesWritten := written
  packfileBytesSent := sent
  storageRequestLastMatched := 0
  packingCompleted := false
  callers := [caller]
  sender := ⟨.top, false, 0, 0, false⟩
  left := 0
  files := files
  half := none
  writers := writers
  excess := chunkExcess n

/-- The task is in the call that adds the chunk. -/
def adding (disk : Disk) (calls : List AddCall) (n : ℕ) (data : Bytes) (pc : AddPc)
    (blobs : List BlobEncrypted) (written sent : ℕ) (files : List (PackfileId × ℕ))
    (writers : List ℕ) : State :=
  packing disk (calls ++ [⟨⟨chunkHash n, .fileChunk, data⟩, pc⟩]) blobs n written sent
    (.adding calls.length false) files writers

/-- The task has written the packfile of the chunk. -/
def added (disk : Disk) (calls : List AddCall) (n : ℕ) (data : Bytes) (pc : AddPc)
    (written sent : ℕ) (caller : Caller) (files : List (PackfileId × ℕ)) (writers : List ℕ) :
    State :=
  packing disk (calls ++ [⟨⟨chunkHash n, .fileChunk, data⟩, pc⟩]) [] (n + 1) written sent caller
    files writers

/-- Nobody is in `write_packfiles`, and the packfiles of the next chunks can be created. -/
structure Ready (n : ℕ) (disk : Disk) (calls : List AddCall) : Prop where
  unlocked : ∀ call ∈ calls, call.pc.isWriting = false
  absent : ∀ i, n ≤ i → i < 256 → disk.packfiles (chunkId i) = none

section

variable {n written sent : ℕ} {data : Bytes} {blob : BlobEncrypted} {disk : Disk}
  {calls : List AddCall} {files : List (PackfileId × ℕ)} {writers : List ℕ}

/-- The task adds the next chunk, and is about to write its packfile. -/
theorem Chunk.queue (h : Chunk n data blob) (hn : n < 256) (hready : Ready n disk calls) :
    Reach (step .transparent sampleKeys) Queues
      (packing disk calls [] n written sent .idle files writers)
      (adding disk calls n data (.writing false) [blob] written sent files writers) := by
  have hnew := isBlobDuplicate_chunk hn
  have hunlocked := hready.unlocked
  have hadd : step .transparent sampleKeys
      (packing disk calls [] n written sent .idle files writers) (.add 0 .fileChunk data)
        = some (adding disk calls n data .called [] written sent files writers) := by
    simp [step, adding, packing, managerStep, State.setCaller, h.length, h.hash]
  have hcheck : step .transparent sampleKeys
      (adding disk calls n data .called [] written sent files writers)
      (.call 0 (.check (some (.fill 0))))
        = some (adding disk calls n data (.encrypted blob) [] written sent files writers) := by
    simp [step, adding, packing, managerStep, CallEvent.toAction, World.inCall, World.unlocked,
      hnew, World.setPc, h.encrypted, show AddPc.called.isWriting = false from rfl,
      if_pos hunlocked]
  have henqueue : step .transparent sampleKeys
      (adding disk calls n data (.encrypted blob) [] written sent files writers) (.call 0 .enqueue)
        = some (adding disk calls n data .queued [blob] written sent files writers) := by
    simp [step, adding, packing, managerStep, CallEvent.toAction, World.inCall, World.unlocked,
      World.setPc, World.setManager,
      show (AddPc.encrypted blob).isWriting = false from rfl, if_pos hunlocked]
  have hover : Manager.overTarget ⟨[blob], chunkIndex n, n * chunkPackfileSize⟩ = true := by
    simp [Manager.overTarget, h.blobHash, hnew, h.blobLength, packfileTargetSize]
  have htrigger : step .transparent sampleKeys
      (adding disk calls n data .queued [blob] written sent files writers) (.call 0 .trigger)
        = some (adding disk calls n data .overTarget [blob] written sent files writers) := by
    simp [step, adding, packing, managerStep, CallEvent.toAction, World.inCall, World.unlocked,
      World.setPc, hover, show AddPc.queued.isWriting = false from rfl, if_pos hunlocked]
  have hlock : step .transparent sampleKeys
      (adding disk calls n data .overTarget [blob] written sent files writers) (.call 0 .lock)
        = some (adding disk calls n data (.writing false) [blob] written sent files writers) := by
    simp [step, adding, packing, managerStep, CallEvent.toAction, World.inCall, World.unlocked,
      World.setPc, show AddPc.overTarget.isWriting = false from rfl, if_pos hunlocked]
  have hfinds : Queues (adding disk calls n data .overTarget [blob] written sent files writers)
      (.call 0 .lock) := by
    intro x hx
    obtain rfl := Option.some.inj hx
    exact ⟨blob, List.mem_singleton_self blob, by rw [h.blobHash]; exact hnew⟩
  exact ((((Reach.refl.tail _ (by trivial) hadd).tail _ (by trivial) hcheck).tail _ (by trivial)
    henqueue).tail _ (by trivial) htrigger).tail _ hfinds hlock

theorem chunkExcess_succ (n : ℕ) : chunkExcess (n + 1) =
    if n * chunkPackfileSize ≤ maxPackfileLocalBufferSize then
      max (chunkExcess n) ((n + 1) * chunkPackfileSize - maxPackfileLocalBufferSize)
    else chunkExcess n := by
  by_cases hle : n * chunkPackfileSize ≤ maxPackfileLocalBufferSize
  · rw [if_pos hle]
    simp only [chunkExcess, chunkPackfileSize, maxPackfileLocalBufferSize] at hle ⊢
    omega
  · rw [if_neg hle]
    simp only [chunkExcess, chunkPackfileSize, maxPackfileLocalBufferSize] at hle ⊢
    omega

/-- A round of a call that creates a packfile. -/
theorem step_write {P : Primitives} {keys : KeyManager} {s : State} {t i m : ℕ} {wrote : Bool}
    {io : PackfileIo} {w : World} (ht : s.callers[t]? = some (.adding i wrote))
    (hw : managerStep P keys s.world (.write i io) = some w) (hhalf : s.half = none)
    (hcreated : s.created w io.id = some m) : step P keys s (.call t (.write io))
      = some (((s.settle w).setFiles (s.files ++ [(io.id, m)])
        (if s.limit < s.whole then s.writers.insert t else s.writers)).setCaller t
          (.adding i true)) := by
  have hcontinues : s.continues w io.id = true := by
    rw [State.continues, hhalf]
    rfl
  have hdeleted : s.half.any Half.deleted = false := by
    rw [hhalf]
    rfl
  simp only [step, ht, CallEvent.toAction, hw, Option.bind_some, hcontinues, if_true,
    record_of_some hcreated hdeleted, hcreated, Option.isSome_some, Bool.or_true]

/-- The packfile of the chunk is written, and the call has found the limit exceeded or not. -/
theorem Chunk.write (h : Chunk n data blob) (hn : n < 256)
    (hnone : disk.packfiles (chunkId n) = none) :
    ∃ content writers', content.length = chunkPackfileSize ∧
      step .transparent sampleKeys
        (adding disk calls n data (.writing false) [blob] written sent files writers)
        (.call 0 (.write (chunkIo n)))
          = some (added (disk.put (chunkId n) content) calls n data
            (.writing (decide (maxPackfileLocalBufferSize < n * chunkPackfileSize))) written sent
            (.adding calls.length true) (files ++ [(chunkId n, chunkPackfileSize)]) writers') := by
  obtain ⟨content, hlen, hround⟩ := h.writePackfile hn hnone
  obtain ⟨exceeded, hexceeded⟩ : ∃ e, e = decide (maxPackfileLocalBufferSize
      < n * chunkPackfileSize) := ⟨_, rfl⟩
  obtain ⟨disk', hdisk'⟩ : ∃ disk', disk' = disk.put (chunkId n) content := ⟨_, rfl⟩
  have hput : disk'.packfiles (chunkId n) = some content := by
    rw [hdisk']
    exact Function.update_self _ _ _
  rw [← hexceeded, ← hdisk'] at hround
  obtain ⟨files', hfiles'⟩ : ∃ files', files' = files ++ [(chunkId n, chunkPackfileSize)] :=
    ⟨_, rfl⟩
  obtain ⟨before, hbefore⟩ : ∃ s, s = adding disk calls n data (.writing false) [blob] written sent
    files writers := ⟨_, rfl⟩
  obtain ⟨writers', hwriters'⟩ : ∃ writers', writers' =
      if (files'.map Prod.snd).sum ≤ maxPackfileLocalBufferSize + 0 then []
      else if before.limit < before.whole then writers.insert 0 else writers := ⟨_, rfl⟩
  refine ⟨content, writers', hlen, ?_⟩
  rw [← hexceeded, ← hdisk', ← hfiles', ← hbefore]
  have hmanager : managerStep .transparent sampleKeys before.world (.write calls.length (chunkIo n))
        = some (added disk' calls n data (.writing exceeded) written sent
          (.adding calls.length true) files' writers').world := by
    subst hbefore
    simp [adding, added, packing, managerStep, World.inCall, World.setPc, World.setManager,
      hround]
  have hexcess : before.excessAfter (added disk' calls n data (.writing exceeded) written sent
      (.adding calls.length true) files' writers').world = chunkExcess (n + 1) := by
    rw [chunkExcess_succ, hbefore]
    rfl
  rw [step_write (by rw [hbefore]; rfl) hmanager (by rw [hbefore]; rfl)
    (State.created_eq_some.mpr ⟨by rw [hbefore]; exact hnone, content, hput, hlen⟩),
    State.settle, hexcess, hwriters', hfiles', hbefore]
  rfl

/-- Both mutexes are let go. -/
theorem added_unlock {exceeded : Bool} : step .transparent sampleKeys
    (added disk calls n data (.writing exceeded) written sent (.adding calls.length true) files
      writers) (.call 0 .unlock)
      = some (added disk calls n data (.returned (if exceeded then .error .exceededBufferLimit
          else .ok (some ((n + 1) * chunkPackfileSize)))) written sent (.adding calls.length true)
        files writers) := by
  simp [step, added, packing, managerStep, CallEvent.toAction, World.inCall, World.setPc]

/-- The task stores what the call has returned. -/
theorem added_returned : step .transparent sampleKeys
    (added disk calls n data (.returned (.ok (some ((n + 1) * chunkPackfileSize)))) written sent
      (.adding calls.length true) files writers) (.returned 0)
      = some (added disk calls n data (.returned (.ok (some ((n + 1) * chunkPackfileSize))))
        ((n + 1) * chunkPackfileSize) sent .idle files writers) := by
  simp [step, added, packing, State.setCaller]

/-- Or it is told of the limit. -/
theorem added_told : step .transparent sampleKeys
    (added disk calls n data (.returned (.error .exceededBufferLimit)) written sent
      (.adding calls.length true) files writers) (.returned 0)
      = some (added disk calls n data (.returned (.error .exceededBufferLimit)) written sent
        .blocking files writers) := by
  simp [step, added, packing, State.setCaller]

/-- It looks at the flag, and goes on. -/
theorem added_exceeded : Reach (step .transparent sampleKeys) OfTask
    (added disk calls n data (.returned (.error .exceededBufferLimit)) written sent
      (.adding calls.length true) files writers)
    (added disk calls n data (.returned (.error .exceededBufferLimit)) written sent .idle files
      writers) := by
  have hblock : step .transparent sampleKeys
      (added disk calls n data (.returned (.error .exceededBufferLimit)) written sent .blocking
        files writers) (.block 0 .shouldContinue)
        = some (added disk calls n data (.returned (.error .exceededBufferLimit)) written sent
          .idle files writers) := rfl
  exact (Reach.refl.tail _ (by simp [OfTask, added, packing]) added_told).tail _ (by trivial) hblock

/-- The packfile of the chunk is there, and no other. -/
theorem Ready.put (h : Ready n disk calls) (hn : n < 256) {content : Bytes}
    (r : Except PackfileError (Option ℕ)) : Ready (n + 1) (disk.put (chunkId n) content)
      (calls ++ [⟨⟨chunkHash n, .fileChunk, data⟩, .returned r⟩]) := by
  constructor
  · intro call hcall
    rcases List.mem_append.mp hcall with hcall | hcall
    · exact h.unlocked call hcall
    · rw [List.mem_singleton.mp hcall]
      rfl
  · intro i hi hlt
    have hne : chunkId i ≠ chunkId n := by
      intro heq
      have hin := chunkByte_inj hlt hn (fill_inj heq)
      omega
    exact (Function.update_of_ne hne _ _).trans (h.absent i (by omega) hlt)

/-- The packfile is written; the call returns what has been written, or that the limit is
exceeded, and then the task goes on, for the backup is not paused. -/
theorem Chunk.add (h : Chunk n data blob) (hn : n < 256) (hready : Ready n disk calls) :
    ∃ content calls' written' writers', content.length = chunkPackfileSize ∧
      Ready (n + 1) (disk.put (chunkId n) content) calls' ∧
      written' = (if maxPackfileLocalBufferSize < n * chunkPackfileSize then written
        else (n + 1) * chunkPackfileSize) ∧
      Reach (step .transparent sampleKeys) OfTask
        (packing disk calls [] n written sent .idle files writers)
        (packing (disk.put (chunkId n) content) calls' [] (n + 1) written' sent .idle
          (files ++ [(chunkId n, chunkPackfileSize)]) writers') := by
  obtain ⟨content, writers', hlen, hwrite⟩ := h.write hn (hready.absent n le_rfl hn)
  have hqueued : Reach (step .transparent sampleKeys) OfTask
      (packing disk calls [] n written sent .idle files writers)
      (adding disk calls n data (.writing false) [blob] written sent files writers) :=
    (h.queue hn hready).mono fun _ _ ha => ha.ofTask
  have hreturning := (hqueued.tail _ (by trivial) hwrite).tail _ (by trivial) added_unlock
  have hready' : ∀ r, Ready (n + 1) (disk.put (chunkId n) content)
      (calls ++ [⟨⟨chunkHash n, .fileChunk, data⟩, .returned r⟩]) := fun r => hready.put hn r
  by_cases hlimit : maxPackfileLocalBufferSize < n * chunkPackfileSize
  · rw [decide_eq_true hlimit] at hreturning
    refine ⟨content, _, _, writers', hlen, hready' (.error .exceededBufferLimit), rfl, ?_⟩
    rw [if_pos hlimit]
    exact hreturning.trans added_exceeded
  · rw [decide_eq_false hlimit] at hreturning
    refine ⟨content, _, _, writers', hlen,
      hready' (.ok (some ((n + 1) * chunkPackfileSize))), rfl, ?_⟩
    rw [if_neg hlimit]
    exact hreturning.tail _ (by simp [OfTask, added, packing]) added_returned

/-- What takes the chunk to its packfile is always in time. -/
theorem Queues.inTime {s : State} {a : Action} (h : Queues s a) : InTime s a := by
  cases a with
  | add => trivial
  | call t e =>
    cases e with
    | write io => cases h
    | check | enqueue | trigger | lock | unlock => trivial
  | grow | returned | block | flush | complete | matched | send => cases h

theorem Chunk.nextSize (h : Chunk n data blob) (hn : n < 256) :
    nextSize ⟨[blob], chunkIndex n, n * chunkPackfileSize⟩ = chunkPackfileSize := by
  have hunknown : unknown (chunkIndex n) [blob] = [blob] := by
    simp [unknown, h.blobHash, isBlobDuplicate_chunk hn]
  have hnext : nextPackfile (chunkIndex n) [blob] = [blob] := by
    simp [nextPackfile, hunknown, untilFull]
  simp [Buffering.nextSize, hnext, packfileSize, blobsSize, blobSize, h.blobLength, varintSize,
    blobNonceSize, chunkPackfileSize]

/-- The packfile of the chunk may be written, also over the limit. -/
theorem Chunk.hasRoom (h : Chunk n data blob) (hn : n < 256)
    (hsum : (files.map Prod.snd).sum = n * chunkPackfileSize) :
    HasRoom (adding disk calls n data (.writing false) [blob] written sent files writers) 0
      (Recorded (chunkIo n)) := by
  refine Or.inr fun x hx _ => ?_
  obtain rfl := Option.some.inj hx
  have hwhole : (adding disk calls n data (.writing false) [blob] written sent files
      writers).whole = n * chunkPackfileSize := hsum
  have hshare : chunkPackfileSize ≤ share 1 := by decide
  refine ⟨(h.nextSize hn).trans_le hshare, fun hover => ⟨fun i wrote hcaller => ?_, ?_, rfl,
    fun _ => rfl, ?_⟩⟩
  · exact (Caller.adding.inj (Option.some.inj hcaller)).2.symm
  · rw [hwhole] at hover
    exact hover
  · rw [length_chunkIndex]
    exact hn.trans (by decide)

/-- The packfile of the chunk is in the folder, and its call has not yet returned. -/
theorem Chunk.fills (h : Chunk n data blob) (hn : n < 256) (hready : Ready n disk calls)
    (hsum : (files.map Prod.snd).sum = n * chunkPackfileSize) :
    ∃ content writers', content.length = chunkPackfileSize ∧
      Reach (step .transparent sampleKeys) InTime
        (packing disk calls [] n written sent .idle files writers)
        (added (disk.put (chunkId n) content) calls n data
          (.returned (if maxPackfileLocalBufferSize < n * chunkPackfileSize then
            .error .exceededBufferLimit else .ok (some ((n + 1) * chunkPackfileSize))))
          written sent (.adding calls.length true) (files ++ [(chunkId n, chunkPackfileSize)])
          writers') := by
  obtain ⟨content, writers', hlen, hwrite⟩ := h.write hn (hready.absent n le_rfl hn)
  have hqueued : Reach (step .transparent sampleKeys) InTime
      (packing disk calls [] n written sent .idle files writers)
      (adding disk calls n data (.writing false) [blob] written sent files writers) :=
    (h.queue hn hready).mono fun _ _ ha => ha.inTime
  have hroom : InTime (adding disk calls n data (.writing false) [blob] written sent files writers)
      (.call 0 (.write (chunkIo n))) := h.hasRoom hn hsum
  have hunlocked := (hqueued.tail _ hroom hwrite).tail (.call 0 .unlock) (by trivial) added_unlock
  refine ⟨content, writers', hlen, ?_⟩
  simpa only [decide_eq_true_eq] using hunlocked

/-- As long as the packer's total has been within the limit before, its packfiles come in time. -/
theorem filled_reached (hn : n ≤ 34) : ∃ disk calls files writers, Ready n disk calls ∧
    (files.map Prod.snd).sum = n * chunkPackfileSize ∧
      Reach (step .transparent sampleKeys) InTime (start 1 .empty ⟨[], [], [], 0, false⟩ 0 true)
        (packing disk calls [] n (n * chunkPackfileSize) 0 .idle files writers) := by
  induction n with
  | zero =>
    have hready : Ready 0 .empty [] := ⟨fun _ hcall => (by cases hcall), fun _ _ _ => rfl⟩
    exact ⟨.empty, [], [], [], hready, by simp, .refl⟩
  | succ n ih =>
    obtain ⟨disk, calls, files, writers, hready, hsum, hreach⟩ := ih (by omega)
    obtain ⟨data, blob, h⟩ := exists_chunk n
    obtain ⟨content, writers', hlen, hfills⟩ := h.fills (by omega) hready hsum
    have hle : ¬ maxPackfileLocalBufferSize < n * chunkPackfileSize := by
      simp only [chunkPackfileSize, maxPackfileLocalBufferSize]
      omega
    rw [if_neg hle] at hfills
    refine ⟨_, _, _, writers', hready.put (by omega) _, ?_,
      hreach.trans (hfills.tail (.returned 0) trivial added_returned)⟩
    simp [hsum, Nat.succ_mul]

end

/-! ## 7. The bound -/

/-- If every packfile is written in time, the folder stays within its bound. -/
theorem local_buffer_bounded {P : Primitives} {keys : KeyManager} {s : State} {k left : ℕ}
    {disk : Disk} {ix : BlobIndex} {sized : Bool} (hP : P.Lawful)
    (h : Reach (step P keys) InTime (start k disk ix left sized) s) : Bounded k left s :=
  (h.invariant inCheck_start fun _ _ _ hs ha hst => inCheck_step hP hs ha hst).bounded

/-- No peer is reached: the 34th packfile takes the folder over the limit, the backup is paused,
and the task stops with the 35th. -/
theorem local_buffer_bounded_paused : ∃ s,
    Reach (step .transparent sampleKeys) InTime (start 1 .empty ⟨[], [], [], 0, false⟩ 0 true) s ∧
    maxPackfileLocalBufferSize < s.size ∧ s.pause.packer 0 = .waiting 1 ∧ Bounded 1 0 s := by
  obtain ⟨disk, calls, files, writers, hready, hsum, hreach⟩ := filled_reached (le_refl 34)
  obtain ⟨data, blob, h⟩ := exists_chunk 34
  obtain ⟨content, writers', hlen, hfills⟩ := h.fills (by decide) hready hsum
  rw [if_pos (by decide)] at hfills
  obtain ⟨files', hfiles'⟩ : ∃ files', files' = files ++ [(chunkId 34, chunkPackfileSize)] :=
    ⟨_, rfl⟩
  rw [← hfiles'] at hfills
  -- the sender pauses the backup before the task looks at the flag
  have hpaused := (((hreach.trans hfills).tail (.returned 0) (by trivial) added_told).tail
    (.send .check) (by trivial) rfl).tail (.send .subscribe) (by trivial) rfl
  have hstopped := (hpaused.tail (.block 0 .shouldContinue) (by exact fun _ => rfl) rfl).tail
    (.block 0 .subscribe) (by trivial) rfl
  refine ⟨_, hstopped, ?_, rfl, local_buffer_bounded Primitives.transparent_lawful hstopped⟩
  change maxPackfileLocalBufferSize < (files'.map Prod.snd).sum + 0
  simp [hfiles', hsum, maxPackfileLocalBufferSize, chunkPackfileSize]

section

variable {n written sent : ℕ} {data : Bytes} {blob : BlobEncrypted} {disk : Disk}
  {calls : List AddCall} {files : List (PackfileId × ℕ)} {writers : List ℕ}

/-- The packfile of the first chunk is sent, and then the connection is lost. -/
theorem first_acked {content : Bytes} (hdisk : disk.packfiles (chunkId 0) = some content)
    (hlen : content.length = chunkPackfileSize) (hready : Ready 1 disk calls) :
    ∃ disk' writers', Ready 1 disk' calls ∧ Reach (step .transparent sampleKeys) (fun _ _ => True)
      (packing disk calls [] 1 chunkPackfileSize 0 .idle [(chunkId 0, chunkPackfileSize)] writers)
      (packing disk' calls [] 1 chunkPackfileSize chunkPackfileSize .idle [] writers') := by
  obtain ⟨s, hs⟩ : ∃ s, s = packing disk calls [] 1 chunkPackfileSize 0 .idle
    [(chunkId 0, chunkPackfileSize)] writers := ⟨_, rfl⟩
  have hcheck : step .transparent sampleKeys s (.send .check) = some (s.setSender .loading) := by
    subst hs
    simp [step, sendStep, packing, State.availablePackfileBytes, chunkPackfileSize,
      maxPackfileLocalBufferSize]
  have hload : step .transparent sampleKeys (s.setSender .loading) (.send .load)
      = some (s.setSender (.connecting chunkPackfileSize 0)) := by
    subst hs
    rfl
  have hconnect : step .transparent sampleKeys (s.setSender (.connecting chunkPackfileSize 0))
      (.send (.connect true))
        = some { s with sender := ⟨.sending chunkPackfileSize 0, true, 0, 0, false⟩ } := by
    subst hs
    rfl
  have hstat : step .transparent sampleKeys
      { s with sender := ⟨.sending chunkPackfileSize 0, true, 0, 0, false⟩ }
      (.send (.stat (chunkId 0) chunkPackfileSize))
        = some { s with sender :=
            ⟨.acking chunkPackfileSize 0 (chunkId 0) chunkPackfileSize, true, 0, 0, false⟩ } := by
    subst hs
    simp [step, sendStep, packing, State.fileSize, State.setSender, hdisk, hlen]
  have hacked : step .transparent sampleKeys
      { s with sender :=
        ⟨.acking chunkPackfileSize 0 (chunkId 0) chunkPackfileSize, true, 0, 0, false⟩ }
      (.send (.acked true))
        = some ({ s with
            sender := ⟨.sending chunkPackfileSize 0, true, 0, 0, false⟩
            packfileBytesSent := chunkPackfileSize }.removeFile (chunkId 0)) := by
    subst hs
    simp [step, sendStep, packing, State.setSender]
  refine ⟨disk.remove (chunkId 0), [], ?_, ?_⟩
  · refine ⟨hready.unlocked, fun i hi hlt => ?_⟩
    by_cases hid : chunkId i = chunkId 0
    · rw [hid]
      exact Function.update_self (chunkId 0) none disk.packfiles
    · exact (Function.update_of_ne hid _ _).trans (hready.absent i hi hlt)
  · have hfails : step .transparent sampleKeys
        ({ s with
            sender := ⟨.sending chunkPackfileSize 0, true, 0, 0, false⟩
            packfileBytesSent := chunkPackfileSize }.removeFile (chunkId 0)) (.send .fails)
          = some (packing (disk.remove (chunkId 0)) calls [] 1 chunkPackfileSize chunkPackfileSize
            .idle [] []) := by
      subst hs
      simp [step, sendStep, packing, State.removeFile, State.setFiles, State.disconnect]
    rw [← hs]
    exact (((((Reach.refl.tail _ trivial hcheck).tail _ trivial hload).tail _ trivial
      hconnect).tail _ trivial hstat).tail _ trivial hacked).tail _ trivial hfails

/-- So it goes on: the task has written the packfiles of `n + 1` chunks, and the count that the
sender looks at stays within the limit. -/
theorem packing_reached (hn : n + 1 < 256) : ∃ disk calls written files writers,
    Ready (n + 1) disk calls ∧ written ≤ 34 * chunkPackfileSize ∧
      (files.map Prod.snd).sum = n * chunkPackfileSize ∧
      Reach (step .transparent sampleKeys) (fun _ _ => True)
        (start 1 .empty ⟨[], [], [], 0, false⟩ 0 true)
        (packing disk calls [] (n + 1) written chunkPackfileSize .idle files writers) := by
  induction n with
  | zero =>
    obtain ⟨data, blob, h⟩ := exists_chunk 0
    have hready : Ready 0 .empty [] := ⟨fun _ hcall => (by cases hcall), fun _ _ _ => rfl⟩
    obtain ⟨content, calls, written, writers, hlen, hready, hwritten, hreach⟩ :=
      h.add (by decide) hready
    rw [Nat.zero_mul, if_neg (by decide), Nat.zero_add, Nat.one_mul] at hwritten
    subst hwritten
    obtain ⟨disk', writers', hready', hsent⟩ :=
      first_acked (Function.update_self (chunkId 0) _ Disk.empty.packfiles) hlen hready
    exact ⟨disk', calls, chunkPackfileSize, [], writers', hready', by omega, by simp,
      (hreach.mono fun _ _ _ => trivial).trans hsent⟩
  | succ n ih =>
    obtain ⟨disk, calls, written, files, writers, hready, hwritten, hsum, hreach⟩ := ih (by omega)
    obtain ⟨data, blob, h⟩ := exists_chunk (n + 1)
    obtain ⟨content, calls', written', writers', -, hready', hwritten', hadded⟩ :=
      h.add (by omega) hready
    refine ⟨_, calls', written', _, writers', hready', ?_, ?_,
      hreach.trans (hadded.mono fun _ _ _ => trivial)⟩
    · rw [hwritten']
      split
      · exact hwritten
      · rename_i hle
        simp only [chunkPackfileSize, maxPackfileLocalBufferSize] at hle ⊢
        omega
    · simp [hsum, Nat.succ_mul]

end

/-- One task, and a sender that is never behind by its own count: the folder grows past its
bound. -/
theorem local_buffer_exceeded : ∃ s, Reach (step .transparent sampleKeys) (fun _ _ => True)
    (start 1 .empty ⟨[], [], [], 0, false⟩ 0 true) s ∧
    s.availablePackfileBytes ≤ maxPackfileLocalBufferSize ∧ ¬ Bounded 1 0 s := by
  obtain ⟨disk, calls, written, files, writers, -, hwritten, hsum, hreach⟩ :=
    packing_reached (show 39 + 1 < 256 by decide)
  refine ⟨_, hreach, ?_, ?_⟩
  · change written - chunkPackfileSize ≤ _
    simp only [chunkPackfileSize, maxPackfileLocalBufferSize] at hwritten ⊢
    omega
  · have hsize : (packing disk calls [] (39 + 1) written chunkPackfileSize .idle files writers).size
        = 39 * chunkPackfileSize := hsum
    rw [Bounded, hsize]
    simp only [chunkPackfileSize, maxPackfileLocalBufferSize, packfileMaxSize]
    omega

end Backuwup.Client.Buffering
