/-
# Sending the index files (`send_index` in `client/src/backup/send.rs`)

`send_index` walks the index folder in the order `read_dir` yields it and sends every file
whose number is above the stored `highest_sent_index`, moving the mark to the number of each
file it has sent.  A call may stop at any of its fallible steps and is then repeated over
another connection.

What is proved is a property of any sequence of calls (`sendIndex_complete`): when each of
them is given the files above its mark in ascending order, a call that returns `Ok` leaves no
file above the original mark unsent.  The loop invariant is `Pending`: a file above the
original mark is acknowledged, or is still ahead in the listing and above the current mark.
Without the ascending order a file is skipped (`sendIndex_skips`).
-/
import Backuwup.Client.FileUtils
import Backuwup.Lib.Transition

namespace Backuwup.Client

/-! ## 1. The code -/

/-- What `read_dir` yields for one entry of the index folder. -/
inductive DirItem
  | file (name : FileName) (data : Bytes)
  /-- a directory or another kind of entry -/
  | other
  /-- the entry is there, its type cannot be read -/
  | fileTypeError
  | error
deriving DecidableEq

/-- Which of the fallible steps for one file succeed. -/
structure IndexIo where
  getHighest : Bool
  read : Bool
  /-- `send_data` returned `Ok`: the peer acknowledged the file -/
  sendData : Bool
  metadata : Bool
  incrementTransmitted : Bool
  saveHighest : Bool

inductive SendIndexError
  | cannotRead
  | io
  | parse
  | config
  | sendingFailed
deriving DecidableEq

/-- What sending reads and changes: the stored mark, the per-peer accounting, and the files
acknowledged so far. -/
structure IndexSender where
  highestSentIndex : Option ℕ
  transmitted : List (ClientId × ℕ)
  acknowledged : List (ClientId × ℕ × Bytes)
deriving DecidableEq

/-- The number is above the stored mark. -/
def Above (mark : Option ℕ) (num : ℕ) : Prop := ∀ m ∈ mark, m < num

instance (mark : Option ℕ) (num : ℕ) : Decidable (Above mark num) :=
  match mark with
  | none => isTrue fun _ h => absurd h (by simp)
  | some m => decidable_of_iff (m < num) (by simp [Above])

def sendIndexFile (peer : ClientId) (name : FileName) (data : Bytes) (io : IndexIo)
    (s : IndexSender) : IndexSender × Except SendIndexError Unit :=
  match parseIndexPathIntoId name with
  | none => (s, .error .parse)
  | some num =>
    if !io.getHighest then (s, .error .config)
    -- skip the index files that have been already sent
    else if ¬ Above s.highestSentIndex num then (s, .ok ())
    else if !io.read then (s, .error .io)
    else if !io.sendData then (s, .error .sendingFailed)
    else
      let s := { s with acknowledged := s.acknowledged ++ [(peer, num, data)] }
      if !io.metadata then (s, .error .io)
      else if !io.incrementTransmitted then (s, .error .config)
      else
        let s := { s with transmitted := s.transmitted ++ [(peer, data.length)] }
        if !io.saveHighest then (s, .error .config)
        else ({ s with highestSentIndex := some num }, .ok ())

/-- The loop of `send_index` over what `read_dir` yields, with the outcomes of the steps of each
entry. -/
def sendIndexItems (peer : ClientId) :
    List DirItem → (ℕ → IndexIo) → IndexSender → IndexSender × Except SendIndexError Unit
  | [], _, s => (s, .ok ())
  | .file name data :: rest, io, s =>
    match sendIndexFile peer name data (io 0) s with
    | (s', .error e) => (s', .error e)
    | (s', .ok _) => sendIndexItems peer rest (fun i => io (i + 1)) s'
  | .other :: rest, io, s => sendIndexItems peer rest (fun i => io (i + 1)) s
  | .fileTypeError :: _, _, s => (s, .error .io)
  | .error :: _, _, s => (s, .error .cannotRead)

/-- `send_index`; without a listing `read_dir` itself has failed. -/
def sendIndex (peer : ClientId) (listing : Option (List DirItem)) (io : ℕ → IndexIo)
    (s : IndexSender) : IndexSender × Except SendIndexError Unit :=
  match listing with
  | none => (s, .error .io)
  | some items => sendIndexItems peer items io s

/-! ## 2. Sequences of calls -/

/-- One call: the peer, the folder as listed, and the outcomes of the steps. -/
structure IndexCall where
  peer : ClientId
  listing : Option (List DirItem)
  io : ℕ → IndexIo

/-- The sender between calls, with the result of the last call. -/
structure IndexRun where
  sender : IndexSender
  last : Option (Except SendIndexError Unit)

def IndexRun.start (mark : Option ℕ) (transmitted : List (ClientId × ℕ)) : IndexRun :=
  ⟨⟨mark, transmitted, []⟩, none⟩

/-- A call is always possible. -/
def indexStep (r : IndexRun) (c : IndexCall) : Option IndexRun :=
  let res := sendIndex c.peer c.listing c.io r.sender
  some ⟨res.1, some res.2⟩

/-- The files among the entries. -/
def DirItem.file? : DirItem → Option (FileName × Bytes)
  | .file name data => some (name, data)
  | _ => none

/-- The listing yields exactly the files of the folder, in some order. -/
def Lists (files : List (FileName × Bytes)) (listing : List DirItem) : Prop :=
  (listing.filterMap DirItem.file?).Perm files

/-- The numbers of the listed files that are above the mark, as listed. -/
def numbersAbove (mark : Option ℕ) (listing : List DirItem) : List ℕ :=
  ((listing.filterMap DirItem.file?).filterMap fun f => parseIndexPathIntoId f.1).filter
    fun n => Above mark n

/-- The call lists the folder, if it can read it at all. -/
def ListsFolder (files : List (FileName × Bytes)) (c : IndexCall) : Prop :=
  ∀ listing ∈ c.listing, Lists files listing

/-- The call lists the folder, and the files above the stored mark come in ascending order. -/
def AscendingCall (files : List (FileName × Bytes)) (r : IndexRun) (c : IndexCall) : Prop :=
  ListsFolder files c ∧
    ∀ listing ∈ c.listing,
      (numbersAbove r.sender.highestSentIndex listing).Pairwise (· < ·)

/-- Some peer has acknowledged the file with this number and content. -/
def Acknowledged (s : IndexSender) (num : ℕ) (data : Bytes) : Prop :=
  ∃ peer, (peer, num, data) ∈ s.acknowledged

/-! ## 3. One file -/

/-- What one file can do: the mark and the acknowledgements stay, the file is acknowledged and
the call fails, or the file is acknowledged and the mark moves to it. -/
theorem sendIndexFile_cases (peer : ClientId) (name : FileName) (data : Bytes) (io : IndexIo)
    (s : IndexSender) {s' : IndexSender} {r : Except SendIndexError Unit}
    (h : sendIndexFile peer name data io s = (s', r)) :
    (s' = s ∧ ∃ e, r = .error e) ∨
    (s' = s ∧ r = .ok () ∧
      ∃ num, parseIndexPathIntoId name = some num ∧ ¬ Above s.highestSentIndex num) ∨
    (∃ num, parseIndexPathIntoId name = some num ∧ Above s.highestSentIndex num ∧
      s'.acknowledged = s.acknowledged ++ [(peer, num, data)] ∧
      ((s'.highestSentIndex = s.highestSentIndex ∧ ∃ e, r = .error e) ∨
        (s'.highestSentIndex = some num ∧ r = .ok ()))) := by
  unfold sendIndexFile at h
  cases hp : parseIndexPathIntoId name with
  | none =>
    rw [hp] at h
    obtain ⟨rfl, rfl⟩ := Prod.mk.inj h
    exact Or.inl ⟨rfl, _, rfl⟩
  | some num =>
    rw [hp] at h
    simp only at h
    split at h
    · obtain ⟨rfl, rfl⟩ := Prod.mk.inj h
      exact Or.inl ⟨rfl, _, rfl⟩
    · split at h
      · rename_i hnot
        obtain ⟨rfl, rfl⟩ := Prod.mk.inj h
        exact Or.inr (Or.inl ⟨rfl, rfl, num, rfl, hnot⟩)
      · rename_i hab
        rw [not_not] at hab
        split at h
        · obtain ⟨rfl, rfl⟩ := Prod.mk.inj h
          exact Or.inl ⟨rfl, _, rfl⟩
        · split at h
          · obtain ⟨rfl, rfl⟩ := Prod.mk.inj h
            exact Or.inl ⟨rfl, _, rfl⟩
          · -- the file has been acknowledged; the accounting and the mark can still fail
            refine Or.inr (Or.inr ⟨num, rfl, hab, ?_⟩)
            split at h
            · obtain ⟨rfl, rfl⟩ := Prod.mk.inj h
              exact ⟨rfl, Or.inl ⟨rfl, _, rfl⟩⟩
            · split at h
              · obtain ⟨rfl, rfl⟩ := Prod.mk.inj h
                exact ⟨rfl, Or.inl ⟨rfl, _, rfl⟩⟩
              · split at h
                · obtain ⟨rfl, rfl⟩ := Prod.mk.inj h
                  exact ⟨rfl, Or.inl ⟨rfl, _, rfl⟩⟩
                · obtain ⟨rfl, rfl⟩ := Prod.mk.inj h
                  exact ⟨rfl, Or.inr ⟨rfl, rfl⟩⟩

/-! ## 4. The loop invariant -/

/-- Every file of the folder above the original mark is acknowledged, or it is still to come in
the listing and above the current mark. -/
def Pending (files : List (FileName × Bytes)) (mark : Option ℕ) (rest : List DirItem)
    (s : IndexSender) : Prop :=
  ∀ f ∈ files, ∀ num, parseIndexPathIntoId f.1 = some num → Above mark num →
    Acknowledged s num f.2 ∨
      (f ∈ rest.filterMap DirItem.file? ∧ Above s.highestSentIndex num)

/-- Between calls: what is at or below the current mark is acknowledged. -/
def Covered (files : List (FileName × Bytes)) (mark : Option ℕ) (s : IndexSender) : Prop :=
  ∀ f ∈ files, ∀ num, parseIndexPathIntoId f.1 = some num → Above mark num →
    Acknowledged s num f.2 ∨ Above s.highestSentIndex num

theorem Acknowledged.mono {s s' : IndexSender} {num : ℕ} {data : Bytes}
    {more : List (ClientId × ℕ × Bytes)} (h : Acknowledged s num data)
    (hs : s'.acknowledged = s.acknowledged ++ more) : Acknowledged s' num data := by
  obtain ⟨peer, hmem⟩ := h
  exact ⟨peer, by rw [hs]; exact List.mem_append_left _ hmem⟩

theorem Pending.covered {files : List (FileName × Bytes)} {mark : Option ℕ}
    {rest : List DirItem} {s : IndexSender} (h : Pending files mark rest s) :
    Covered files mark s := by
  intro f hf num hp hab
  exact (h f hf num hp hab).imp_right And.right

/-- A full listing is ahead of a call that starts covered. -/
theorem Covered.pending {files : List (FileName × Bytes)} {mark : Option ℕ}
    {listing : List DirItem} {s : IndexSender} (h : Covered files mark s)
    (hl : Lists files listing) : Pending files mark listing s := by
  intro f hf num hp hab
  exact (h f hf num hp hab).imp_right fun h => ⟨hl.mem_iff.mpr hf, h⟩

theorem Pending.of_nil {files : List (FileName × Bytes)} {mark : Option ℕ} {s : IndexSender}
    (h : Pending files mark [] s) {f : FileName × Bytes} (hf : f ∈ files) {num : ℕ}
    (hp : parseIndexPathIntoId f.1 = some num) (hab : Above mark num) :
    Acknowledged s num f.2 := by
  rcases h f hf num hp hab with h | ⟨h, -⟩
  · exact h
  · simp at h

/-- An entry that is not a file is passed over. -/
theorem Pending.tail_of_none {files : List (FileName × Bytes)} {mark : Option ℕ}
    {item : DirItem} {rest : List DirItem} {s : IndexSender} (hitem : item.file? = none)
    (h : Pending files mark (item :: rest) s) : Pending files mark rest s := by
  intro f hf num hp hab
  have := h f hf num hp hab
  rwa [List.filterMap_cons_none hitem] at this

/-- Raising the mark leaves a sublist of the numbers above it. -/
theorem numbersAbove_sublist {mark mark' : Option ℕ} (h : ∀ n, Above mark' n → Above mark n)
    {item : DirItem} (rest : List DirItem) :
    (numbersAbove mark' rest).Sublist (numbersAbove mark (item :: rest)) := by
  have hmono : (numbersAbove mark' rest).Sublist (numbersAbove mark rest) :=
    List.monotone_filter_right _ fun n hn => by
      simp only [decide_eq_true_eq] at hn ⊢
      exact h n hn
  exact hmono.trans ((((List.sublist_cons_self item rest).filterMap _).filterMap _).filter _)

/-- The head of the numbers above the mark is below the rest of them. -/
theorem above_of_ascending {mark : Option ℕ} {name : FileName} {data : Bytes}
    {rest : List DirItem} {num : ℕ} (hp : parseIndexPathIntoId name = some num)
    (hab : Above mark num)
    (hasc : (numbersAbove mark (.file name data :: rest)).Pairwise (· < ·))
    {f : FileName × Bytes} (hf : f ∈ rest.filterMap DirItem.file?) {n : ℕ}
    (hn : parseIndexPathIntoId f.1 = some n) (habn : Above mark n) : num < n := by
  have hcons : numbersAbove mark (.file name data :: rest) = num :: numbersAbove mark rest := by
    simp [numbersAbove, DirItem.file?, hp, hab]
  rw [hcons, List.pairwise_cons] at hasc
  refine hasc.1 n ?_
  simp only [numbersAbove, List.mem_filter, decide_eq_true_eq]
  exact ⟨List.mem_filterMap.mpr ⟨f, hf, hn⟩, habn⟩

section

variable {files : List (FileName × Bytes)} {mark : Option ℕ} {peer : ClientId}
  {name : FileName} {data : Bytes} {rest : List DirItem} {io : IndexIo} {s s' : IndexSender}

/-- A file that ends the call leaves everything at or below the mark acknowledged. -/
theorem Pending.fail {e : SendIndexError} (h : Pending files mark (.file name data :: rest) s)
    (hfile : sendIndexFile peer name data io s = (s', .error e)) : Covered files mark s' := by
  obtain ⟨rfl, -⟩ | ⟨-, hr, -⟩ | ⟨num, -, -, hack, ⟨hmark, -⟩ | ⟨-, hr⟩⟩ :=
    sendIndexFile_cases peer name data io s hfile
  · exact h.covered
  · cases hr
  · intro f hf n hn hab
    rw [hmark]
    exact (h.covered f hf n hn hab).imp_left fun h => h.mono hack
  · cases hr

/-- A file that is skipped or sent leaves the rest of the listing ahead of the mark. -/
theorem Pending.pass (h : Pending files mark (.file name data :: rest) s)
    (hasc : (numbersAbove s.highestSentIndex (.file name data :: rest)).Pairwise (· < ·))
    (hfile : sendIndexFile peer name data io s = (s', .ok ())) :
    Pending files mark rest s' ∧ (numbersAbove s'.highestSentIndex rest).Pairwise (· < ·) := by
  obtain ⟨-, e, hr⟩ | ⟨rfl, -, num, hp, hnot⟩ | ⟨num, hp, hab, hack, ⟨-, e, hr⟩ | ⟨hmark, -⟩⟩ :=
    sendIndexFile_cases peer name data io s hfile
  · cases hr
  · -- skipped: the file is at or below the mark, so it was acknowledged before
    refine ⟨?_, hasc.sublist (numbersAbove_sublist (fun _ h => h) rest)⟩
    intro f hf n hn habn
    rcases h f hf n hn habn with h | ⟨hmem, habove⟩
    · exact Or.inl h
    · rcases List.mem_cons.mp hmem with rfl | hmem
      · rw [hp, Option.some.injEq] at hn
        exact absurd (hn ▸ habove) hnot
      · exact Or.inr ⟨hmem, habove⟩
  · cases hr
  · -- sent: the files still ahead are above the new mark
    have hraise : ∀ n, Above (some num) n → Above s.highestSentIndex n := by
      intro n hn m hm
      exact lt_trans (hab m hm) (hn num rfl)
    constructor
    · intro f hf n hn habn
      rcases h f hf n hn habn with h | ⟨hmem, habove⟩
      · exact Or.inl (h.mono hack)
      · rcases List.mem_cons.mp hmem with rfl | hmem
        · rw [hp, Option.some.injEq] at hn
          exact Or.inl ⟨peer, by rw [hack, ← hn]; simp⟩
        · refine Or.inr ⟨hmem, ?_⟩
          rw [hmark]
          intro m hm
          rw [Option.mem_some_iff] at hm
          exact hm ▸ above_of_ascending hp hab hasc hmem hn habove
    · rw [hmark]
      exact hasc.sublist (numbersAbove_sublist hraise rest)

end

/-- One call keeps everything at or below the mark acknowledged, and acknowledges everything
when it returns `Ok`. -/
theorem sendIndexItems_pending {files : List (FileName × Bytes)} {mark : Option ℕ}
    (peer : ClientId) (rest : List DirItem) (io : ℕ → IndexIo) (s : IndexSender)
    (h : Pending files mark rest s)
    (hasc : (numbersAbove s.highestSentIndex rest).Pairwise (· < ·)) :
    Covered files mark (sendIndexItems peer rest io s).1 ∧
      ((sendIndexItems peer rest io s).2 = .ok () →
        Pending files mark [] (sendIndexItems peer rest io s).1) := by
  induction rest generalizing io s with
  | nil => exact ⟨h.covered, fun _ => h⟩
  | cons item rest ih =>
    cases item with
    | other =>
      exact ih _ s (h.tail_of_none rfl) (hasc.sublist (numbersAbove_sublist (fun _ h => h) rest))
    | fileTypeError => exact ⟨h.covered, fun hr => by cases hr⟩
    | error => exact ⟨h.covered, fun hr => by cases hr⟩
    | file name data =>
      cases hfile : sendIndexFile peer name data (io 0) s with
      | mk s' r =>
        cases r with
        | error e =>
          simp only [sendIndexItems, hfile]
          exact ⟨h.fail hfile, fun hr => by cases hr⟩
        | ok u =>
          simp only [sendIndexItems, hfile]
          obtain ⟨hrest, hasc'⟩ := h.pass hasc hfile
          exact ih _ s' hrest hasc'

/-- The same for a whole call, which may also fail to read the folder. -/
theorem sendIndex_pending {files : List (FileName × Bytes)} {mark : Option ℕ} {r : IndexRun}
    {c : IndexCall} (hcov : Covered files mark r.sender) (hc : AscendingCall files r c) :
    Covered files mark (sendIndex c.peer c.listing c.io r.sender).1 ∧
      ((sendIndex c.peer c.listing c.io r.sender).2 = .ok () →
        Pending files mark [] (sendIndex c.peer c.listing c.io r.sender).1) := by
  cases hl : c.listing with
  | none => exact ⟨hcov, fun hr => absurd hr (by simp [sendIndex])⟩
  | some items =>
    exact sendIndexItems_pending c.peer items c.io r.sender (hcov.pending (hc.1 items hl))
      (hc.2 items hl)

/-! ## 5. Runs -/

/-- In every run of calls that each see the files above their mark in ascending order,
what is at or below the mark is acknowledged, and all of it is after a call that returned
`Ok`. -/
theorem sendIndex_complete {files : List (FileName × Bytes)} {mark : Option ℕ}
    {transmitted : List (ClientId × ℕ)} {r : IndexRun}
    (h : Transition.Reach indexStep (AscendingCall files) (.start mark transmitted) r)
    (hok : r.last = some (.ok ())) :
    ∀ f ∈ files, ∀ num, parseIndexPathIntoId f.1 = some num → Above mark num →
      Acknowledged r.sender num f.2 := by
  have hinv : Covered files mark r.sender ∧
      (r.last = some (.ok ()) → Pending files mark [] r.sender) := by
    refine h.invariant (I := fun r => Covered files mark r.sender ∧
      (r.last = some (.ok ()) → Pending files mark [] r.sender))
      ⟨fun f _ num _ hab => Or.inr hab, fun hl => absurd hl (by simp [IndexRun.start])⟩ ?_
    rintro r c r' ⟨hcov, -⟩ hc hstep
    simp only [indexStep, Option.some.injEq] at hstep
    subst hstep
    have hcall := sendIndex_pending hcov hc
    exact ⟨hcall.1, fun hl => hcall.2 (Option.some.inj hl)⟩
  intro f hf num hp hab
  exact (hinv.2 hok).of_nil hf hp hab

def twoIndexFiles : List (FileName × Bytes) :=
  [("0000000001".toList, [1]), ("0000000002".toList, [2])]

/-- A call that sees the two files in the given order, with every step succeeding. -/
def listingCall (files : List (FileName × Bytes)) : IndexCall :=
  ⟨FixedBytes.fill 7, some (files.map fun f => .file f.1 f.2),
    fun _ => ⟨true, true, true, true, true, true⟩⟩

/-- The two files are sent by one call that lists them in ascending order. -/
theorem sendIndex_complete_two :
    ∃ r, indexStep (.start none []) (listingCall twoIndexFiles) = some r ∧
      Acknowledged r.sender 1 [1] ∧ Acknowledged r.sender 2 [2] := by
  refine ⟨⟨_, some (.ok ())⟩, rfl, ?_⟩
  have hall := @sendIndex_complete twoIndexFiles none [] _
    (.tail (listingCall twoIndexFiles) .refl ⟨?_, ?_⟩ rfl) rfl
  · exact ⟨hall ("0000000001".toList, [1]) (by simp [twoIndexFiles]) 1 (by decide)
        (by simp [Above]),
      hall ("0000000002".toList, [2]) (by simp [twoIndexFiles]) 2 (by decide) (by simp [Above])⟩
  · intro listing hl
    obtain rfl := Option.some.inj hl
    exact List.Perm.refl _
  · intro listing hl
    obtain rfl := Option.some.inj hl
    decide

/-- Listed the other way round, file 2 moves the mark past file 1, which is skipped by a call
that returns `Ok`. -/
theorem sendIndex_skips :
    ListsFolder twoIndexFiles (listingCall twoIndexFiles.reverse) ∧
    ∃ r, indexStep (.start none []) (listingCall twoIndexFiles.reverse) = some r ∧
      r.last = some (.ok ()) ∧ ¬ Acknowledged r.sender 1 [1] := by
  refine ⟨?_, ⟨_, some (.ok ())⟩, rfl, rfl, ?_⟩
  · intro listing hl
    obtain rfl := Option.some.inj hl
    exact List.Perm.swap _ _ []
  · have hack : (sendIndex (FixedBytes.fill 7) (listingCall twoIndexFiles.reverse).listing
        (listingCall twoIndexFiles.reverse).io (IndexRun.start none []).sender).1.acknowledged
        = [(FixedBytes.fill 7, 2, [2])] := rfl
    rintro ⟨peer, hmem⟩
    change _ ∈ (sendIndex (FixedBytes.fill 7) _ _ _).1.acknowledged at hmem
    rw [hack] at hmem
    simp at hmem

end Backuwup.Client
